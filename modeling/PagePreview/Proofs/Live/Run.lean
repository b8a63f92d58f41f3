/-
PagePreview.Proofs.Live.Run — what can happen to a page, and what it does.

Eight things can happen to a page. To its view each of them does the same
in the end: what the user did to the elements stays, and then either the
data is shown, or nothing else changes and the data is as it was. The data
never loses a key.

* `LivePage.Action`, `LivePage.act`, `LivePage.run` — what happens.
* `LivePage.run_of_act` — what each action keeps, any number of them keeps.
* `LivePage.Refreshes` — the actions after which the data is shown.
* `LivePage.prepare` — what an action does to the page itself.
* `Session.serve_cases` — what a request does to the backend.
* `LivePage.act_forms` — all that an action does.
* `LivePage.act_cases` — what an action does to a page whose elements have
  keys.
-/
import PagePreview.Proofs.Backend.Session
import PagePreview.Proofs.Backend.Writes
import PagePreview.Proofs.Live.Wire

namespace PagePreview

namespace LivePage

/-- What can happen to a page in use. -/
inductive Action
  /-- The page is started. -/
  | boot
  /-- The data is pulled. -/
  | sync
  /-- A request is sent to the backend. -/
  | fetch (r : Request)
  /-- A button is pressed. -/
  | press (event : String) (arg : Option String)
  /-- An edit of a field is committed. -/
  | change (index : Nat) (value : String)
  /-- Time passes. -/
  | advance (ms : Nat)
  /-- The user moves to an element, or out of all of them. -/
  | focus (index : Option Nat)
  /-- The user types into an element. -/
  | type (index : Nat) (value : String)

/-- The page after an action. -/
def act (p : LivePage) : Action → LivePage
  | .boot => p.boot.state
  | .sync => p.sync.state
  | .fetch r => (p.fetch r).state
  | .press event arg => (p.press event arg).state
  | .change index value => (p.change index value).state
  | .advance ms => (p.advance ms).state
  | .focus index => { p with view := p.view.focus index }
  | .type index value => { p with view := p.view.setValue index value }

/-- The page after actions. -/
def run (p : LivePage) (actions : List Action) : LivePage :=
  actions.foldl act p

/-- What each action keeps holds after any actions. -/
theorem run_of_act {motive : LivePage → Prop} (hact : ∀ p a, motive p → motive (p.act a))
    (actions : List Action) {p : LivePage} (h : motive p) : motive (p.run actions) := by
  induction actions generalizing p with
  | nil => exact h
  | cons a actions ih => exact ih (hact p a h)

/-- The actions after which the data is shown: a start, a pull, a press, an
edit of a field, a request that changes the data, and time in which a poll
interval ends. -/
def Refreshes (p : LivePage) : Action → Prop
  | .boot => True
  | .sync => True
  | .fetch r => r.method = "POST" ∧ ∃ response, (p.fetch r).result = some response ∧
      response.status = 200
  | .press .. => True
  | .change index _ => ∃ e, p.view[index]? = some e ∧ e.kind = .editable
  | .advance ms => 1 ≤ (p.advance ms).result
  | .focus _ => False
  | .type .. => False

namespace Action

/-- What the user makes of the element at a place. -/
def touch (i : Nat) (e : BoundElement) : Action → BoundElement
  | change index value =>
    if i = index ∧ e.kind = .editable then { e with value := value } else e
  | focus index => { e with focused := some i == index }
  | type index value => if i = index then { e with value := value } else e
  | _ => e

/-- The time after an action. -/
def clock (before : Nat) : Action → Nat
  | advance ms => min (before + ms) Bootstrap.maxMilliseconds
  | _ => before

end Action

/-- What an action does to the page itself, before the data is looked at:
the user moves and types, and time passes. -/
def prepare (p : LivePage) (a : Action) : LivePage :=
  { p with
    view := p.view.mapIdx fun i e => a.touch i e
    clock := a.clock p.clock }

end LivePage

/-! ## The backend -/

namespace Session

/-- A request changes the data, after which it is to be shown, or it changes
nothing and is no change that was made. -/
theorem serve_cases (s : Session) (r : Request) :
    ((s.serve r).result.refreshView = true ∧ (s.serve r).state.store.Extends s.store) ∨
      ((s.serve r).result.refreshView = false ∧ (s.serve r).state = s ∧
        (r.method = "POST" → (s.serve r).result.response.status ≠ 200)) := by
  rcases s.serve_forms r with ⟨-, key, val, h⟩ | ⟨-, event, arg, h⟩ | ⟨response, h, hpost⟩
  · rw [h]
    exact .inl ⟨rfl, s.extends_call (.update key val)⟩
  · rw [h]
    exact .inl ⟨rfl, s.extends_call (.trigger event arg)⟩
  · rw [h]
    exact .inr ⟨rfl, rfl, hpost⟩

end Session

/-! ## The user -/

/-- The second element is the first after the user moved and typed. -/
structure BoundElement.Retyped (e e' : BoundElement) : Prop where
  key : e'.key = e.key
  kind : e'.kind = e.kind
  text : e'.text = e.text
  progress : e'.progress = e.progress
  bindHint : e'.bindHint = e.bindHint

/-- The second view is the first after the user moved and typed. -/
def View.Retyped (v v' : View) : Prop :=
  List.Forall₂ BoundElement.Retyped v v'

namespace View

theorem Retyped.refl (v : View) : v.Retyped v :=
  List.forall₂_same.mpr fun _ _ => ⟨rfl, rfl, rfl, rfl, rfl⟩

theorem mapIdx_touch_eq_self {v : View} {a : LivePage.Action}
    (h : ∀ i e, v[i]? = some e → a.touch i e = e) : (v.mapIdx fun i e => a.touch i e) = v := by
  refine List.ext_getElem? fun i => ?_
  rw [List.getElem?_mapIdx]
  cases he : v[i]? with
  | none => rfl
  | some e => exact congrArg some (h i e he)

theorem mapIdx_touch_type (v : View) (index : Nat) (value : String) :
    (v.mapIdx fun i e => (LivePage.Action.type index value).touch i e) =
      v.setValue index value := by
  refine List.ext_getElem? fun i => ?_
  rw [List.getElem?_mapIdx, setValue, List.getElem?_modify]
  by_cases hi : index = i
  · simp [LivePage.Action.touch, hi]
  · simp [LivePage.Action.touch, hi, Ne.symm hi]

/-- To commit an edit of a field the user types into it. -/
theorem mapIdx_touch_change {v : View} {index : Nat} {e : BoundElement} (he : v[index]? = some e)
    (hkind : e.kind = .editable) (value : String) :
    (v.mapIdx fun i e => (LivePage.Action.change index value).touch i e) =
      v.setValue index value := by
  rw [← mapIdx_touch_type]
  refine List.ext_getElem? fun i => ?_
  rw [List.getElem?_mapIdx, List.getElem?_mapIdx]
  by_cases hi : i = index
  · rw [hi, he]
    simp [LivePage.Action.touch, hkind]
  · simp [LivePage.Action.touch, hi]

end View

/-! ## The page -/

namespace LivePage

/-- The user may have moved and typed, the data may have grown and changed,
and then the data was shown. -/
def Shows (p p' : LivePage) : Prop :=
  p'.session.store.Extends p.session.store ∧
    ∃ v, p.view.Retyped v ∧ p'.view = v.refresh p'.session.store

/-- The user may have moved and typed, and that is all. -/
def Keeps (p p' : LivePage) : Prop :=
  p'.session.store = p.session.store ∧ p.view.Retyped p'.view

variable {p p' : LivePage}

/-- The data may have grown and changed, and then it was shown. -/
def Displays (p p' : LivePage) : Prop :=
  ∃ s : Session, s.store.Extends p.session.store ∧
    p' = { p with session := s, view := p.view.refresh s.store }

theorem displays_refresh (p : LivePage) : p.Displays p.refresh :=
  ⟨p.session, .refl p.session.store, rfl⟩

theorem Displays.refresh (h : p.Displays p') : p.Displays p'.refresh := by
  obtain ⟨s, hs, rfl⟩ := h
  refine ⟨s, hs, ?_⟩
  simp only [LivePage.refresh, View.refresh_refresh]

theorem Displays.shows (h : p.Displays p') : p.Shows p' := by
  obtain ⟨s, hs, rfl⟩ := h
  exact ⟨hs, p.view, .refl p.view, rfl⟩

theorem fetch_of_isApi (p : LivePage) {r : Request} (h : r.isApi) :
    p.fetch r =
      ⟨some (p.session.serve r).result.response,
        if (p.session.serve r).result.refreshView then
          refresh { p with session := (p.session.serve r).state }
        else { p with session := (p.session.serve r).state },
        .dispatched r.method r.path :: (p.session.serve r).records⟩ := by
  rw [fetch, Session.dispatch_of_isApi p.session h]
  rfl

theorem fetch_of_not_isApi (p : LivePage) {r : Request} (h : ¬r.isApi) :
    p.fetch r = ⟨none, p, []⟩ := by
  rw [fetch, Session.dispatch_of_not_isApi p.session h]
  rfl

/-- A request changes the data and has it shown, or it changes nothing. -/
theorem fetch_forms (p : LivePage) (r : Request) :
    p.Displays (p.fetch r).state ∨ (¬p.Refreshes (.fetch r) ∧ (p.fetch r).state = p) := by
  by_cases hapi : r.isApi
  · rw [Refreshes, fetch_of_isApi p hapi]
    rcases p.session.serve_cases r with ⟨hshown, hstore⟩ | ⟨hshown, hsame, hstatus⟩
    · rw [if_pos hshown]
      exact .inl ⟨_, hstore, rfl⟩
    · rw [hshown, hsame]
      refine .inr ⟨?_, rfl⟩
      rintro ⟨hpost, response, hresponse, hok⟩
      obtain rfl := Option.some.inj hresponse
      exact hstatus hpost hok
  · rw [Refreshes, fetch_of_not_isApi p hapi]
    exact .inr ⟨fun ⟨_, _, hresponse, _⟩ => (nomatch hresponse), rfl⟩

theorem press_state (p : LivePage) (event : String) (arg : Option String) :
    (p.press event arg).state =
      (p.fetch (.ofUrl "POST" (triggerUrl event arg))).state.refresh := by
  simp only [press, sync_eq]

theorem displays_press (p : LivePage) (event : String) (arg : Option String) :
    p.Displays (p.press event arg).state := by
  rw [press_state]
  rcases p.fetch_forms (.ofUrl "POST" (triggerUrl event arg)) with hdisplays | ⟨-, hsame⟩
  · exact hdisplays.refresh
  · rw [hsame]
    exact p.displays_refresh

/-- The data is shown if an interval ends, and it does not matter how many. -/
theorem advance_state (p : LivePage) (ms : Nat) :
    (p.advance ms).state =
      { p with
        clock := min (p.clock + ms) Bootstrap.maxMilliseconds
        view := if (p.advance ms).result = 0 then p.view else p.view.refresh p.session.store } := by
  change (syncTimes (p.advance ms).result
    { p with clock := min (p.clock + ms) Bootstrap.maxMilliseconds }).state = _
  rcases (p.advance ms).result with _ | n
  · rfl
  · rw [syncTimes_succ]
    rfl

theorem extends_seed (s : Store) (keys : List String) : (seed s keys).Extends s :=
  .foldl (fun s key => by
    split
    · exact .refl s
    · exact .insert s key "") keys s

theorem contains_seed {keys : List String} {key : String} (h : key ∈ keys) :
    ∀ s : Store, (seed s keys).contains key := by
  induction keys with
  | nil => cases h
  | cons k keys ih =>
    intro s
    rcases List.mem_cons.mp h with rfl | h
    · refine extends_seed _ keys key ?_
      dsimp only
      split_ifs with hs
      · exact hs
      · rw [Table.contains, Table.get?_insert, if_pos rfl]
        rfl
    · exact ih h _

theorem boot_state (p : LivePage) :
    p.boot.state = (p.withStore (seed p.session.store p.view.editableKeys)).refresh.refresh := by
  rw [boot, sync_eq]

theorem displays_boot (p : LivePage) : p.Displays p.boot.state := by
  have hseeded : p.Displays (p.withStore (seed p.session.store p.view.editableKeys)).refresh :=
    ⟨_, extends_seed _ _, rfl⟩
  rw [boot_state]
  exact hseeded.refresh

/-- The page itself stays as it is when the user touches nothing and no time
passes. -/
theorem prepare_eq_self {a : Action} (htouch : ∀ i e, p.view[i]? = some e → a.touch i e = e)
    (hclock : a.clock p.clock = p.clock) : p.prepare a = p := by
  rw [prepare, View.mapIdx_touch_eq_self htouch, hclock]

theorem prepare_advance (p : LivePage) (ms : Nat) :
    p.prepare (.advance ms) =
      { p with clock := min (p.clock + ms) Bootstrap.maxMilliseconds } := by
  rw [prepare, View.mapIdx_touch_eq_self fun _ _ _ => rfl]
  rfl

theorem prepare_type (p : LivePage) (index : Nat) (value : String) :
    p.prepare (.type index value) = { p with view := p.view.setValue index value } := by
  rw [prepare, View.mapIdx_touch_type]
  rfl

theorem prepare_change {index : Nat} {e : BoundElement} (he : p.view[index]? = some e)
    (hkind : e.kind = .editable) (value : String) :
    p.prepare (.change index value) = { p with view := p.view.setValue index value } := by
  rw [prepare, View.mapIdx_touch_change he hkind]
  rfl

/-- What an action does. After its own part the data may have grown and
changed, and is shown. Or that part is all; then the action is none after
which the data is shown, unless it is an edit of a field without a key. -/
theorem act_forms (p : LivePage) (a : Action) :
    (p.prepare a).Displays (p.act a) ∨
      ((p.Refreshes a → ∃ e ∈ p.view, e.key = "") ∧ p.act a = p.prepare a) := by
  cases a with
  | boot =>
    rw [prepare_eq_self (fun _ _ _ => rfl) rfl]
    exact .inl p.displays_boot
  | sync =>
    rw [prepare_eq_self (fun _ _ _ => rfl) rfl, act, sync_eq]
    exact .inl p.displays_refresh
  | fetch r =>
    rw [prepare_eq_self (fun _ _ _ => rfl) rfl]
    exact (p.fetch_forms r).imp id fun h => ⟨fun hr => absurd hr h.1, h.2⟩
  | press event arg =>
    rw [prepare_eq_self (fun _ _ _ => rfl) rfl]
    exact .inl (p.displays_press event arg)
  | change index value =>
    by_cases hfield : ∃ e, p.view[index]? = some e ∧ e.kind = .editable
    · obtain ⟨e, he, hkind⟩ := hfield
      rw [prepare_change he hkind, act]
      by_cases hkey : e.key = ""
      · refine .inr ⟨fun _ => ⟨e, List.mem_of_getElem? he, hkey⟩, ?_⟩
        rw [p.change_of_key_eq_empty he hkind hkey value]
      · rw [p.change_eq he hkind hkey value]
        exact .inl ⟨_, p.session.extends_call (.update e.key value), rfl⟩
    · have hnone : ∀ e, p.view[index]? = some e → e.kind ≠ .editable :=
        fun e he hkind => hfield ⟨e, he, hkind⟩
      have hprepare : p.prepare (.change index value) = p :=
        prepare_eq_self (fun i e he => if_neg fun ⟨hi, hkind⟩ => hnone e (hi ▸ he) hkind) rfl
      rw [hprepare, act, p.change_of_not_editable hnone value]
      exact .inr ⟨fun h => absurd h hfield, rfl⟩
  | advance ms =>
    rw [prepare_advance, act, advance_state]
    by_cases hticks : (p.advance ms).result = 0
    · rw [if_pos hticks]
      exact .inr ⟨fun hone => absurd hticks (Nat.ne_of_gt hone), rfl⟩
    · rw [if_neg hticks]
      exact .inl ⟨p.session, .refl p.session.store, rfl⟩
  | focus index => exact .inr ⟨False.elim, rfl⟩
  | type index value =>
    rw [prepare_type]
    exact .inr ⟨False.elim, rfl⟩

theorem retyped_touch (a : Action) (i : Nat) (e : BoundElement) : e.Retyped (a.touch i e) := by
  unfold Action.touch
  split
  · split_ifs <;> exact ⟨rfl, rfl, rfl, rfl, rfl⟩
  · exact ⟨rfl, rfl, rfl, rfl, rfl⟩
  · split_ifs <;> exact ⟨rfl, rfl, rfl, rfl, rfl⟩
  · exact ⟨rfl, rfl, rfl, rfl, rfl⟩

theorem retyped_prepare (p : LivePage) (a : Action) : p.view.Retyped (p.prepare a).view := by
  refine List.forall₂_iff_get.mpr ⟨by simp [prepare], fun i _ _ => ?_⟩
  simp only [prepare, List.get_eq_getElem, List.getElem_mapIdx]
  exact retyped_touch a i _

/-- What an action does to a page whose elements have keys. -/
theorem act_cases (hkeys : ∀ e ∈ p.view, e.key ≠ "") (a : Action) :
    p.Shows (p.act a) ∨ (¬p.Refreshes a ∧ p.Keeps (p.act a)) := by
  rcases p.act_forms a with ⟨s, hs, hact⟩ | ⟨hempty, hact⟩
  · rw [hact]
    exact .inl ⟨hs, _, p.retyped_prepare a, rfl⟩
  · rw [hact]
    refine .inr ⟨fun hr => ?_, rfl, p.retyped_prepare a⟩
    obtain ⟨e, he, hkey⟩ := hempty hr
    exact hkeys e he hkey

end LivePage

end PagePreview
