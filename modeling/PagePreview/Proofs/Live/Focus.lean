/-
PagePreview.Proofs.Live.Focus — what the user types stays.

The user is in one element of a page at most. As long as this is a field,
the data is shown around it: nothing changes what is in the field but the
edits of the field itself, whatever happens to the data and to other fields
with the same key. When the user has left it, the field takes up the data
the next time that it is shown.

* `View.OneFocused` — the user is in one element at most.
* `Action.Edits`, `Action.Leaves` — what the user does to one element.
* `BoundElement.Spares` — ways to show the data that leave the user alone.
* `LivePage.exists_spares_act` — an action, element by element.
* `LivePage.held_act`, `LivePage.held_run` — a field that the user is in.
* `LivePage.taken_up_act` — a field that the user is not in.
* `LivePage.typing_is_kept` — all of it together.
-/
import PagePreview.Proofs.Live.Coherence

namespace PagePreview

/-! ## An element -/

namespace BoundElement

/-- A way to show the data that leaves the user alone: elements stay what
they are, and a field that the user is in does not change at all. -/
structure Spares (f : BoundElement → BoundElement) : Prop where
  key : ∀ e, (f e).key = e.key
  focused : ∀ e, (f e).focused = e.focused
  held : ∀ e, e.kind = .editable → e.focused → f e = e

theorem spares_id : Spares id :=
  ⟨fun _ => rfl, fun _ => rfl, fun _ _ _ => rfl⟩

theorem spares_refresh (s : Store) : Spares (refresh s) where
  key e := (e.refresh_cases s).1
  focused e := (e.refresh_cases s).2.2
  held := by
    intro e hkind hfocused
    cases hvalue : s.get? e.key with
    | none => rw [refresh_of_none hvalue]
    | some value => rw [refresh_of_some hvalue, display_of_editable hkind, if_pos hfocused]

end BoundElement

/-! ## An action of the user -/

namespace LivePage.Action

variable {i : Nat} {e : BoundElement} {a : Action}

/-- The action is an edit of the element at a place. -/
def Edits (i : Nat) : Action → Prop
  | change index _ => index = i
  | type index _ => index = i
  | _ => False

/-- The user moves away from the element at a place. -/
def Leaves (i : Nat) : Action → Prop
  | focus index => index ≠ some i
  | _ => False

theorem value_touch (h : ¬a.Edits i) : (a.touch i e).value = e.value := by
  cases a with
  | change index value =>
    have hi : i ≠ index := fun heq => h heq.symm
    simp [touch, hi]
  | type index value =>
    have hi : i ≠ index := fun heq => h heq.symm
    simp [touch, hi]
  | _ => rfl

theorem focused_touch (h : ∀ index, a ≠ focus index) : (a.touch i e).focused = e.focused := by
  cases a with
  | change index value =>
    simp only [touch]
    split_ifs <;> rfl
  | type index value =>
    simp only [touch]
    split_ifs <;> rfl
  | focus index => exact absurd rfl (h index)
  | _ => rfl

theorem focused_touch_of_not_leaves (h : ¬a.Leaves i) (he : e.focused) :
    (a.touch i e).focused := by
  by_cases hfocus : ∃ index, a = focus index
  · obtain ⟨index, rfl⟩ := hfocus
    have hindex : index = some i := not_not.mp h
    simp [touch, hindex]
  · rw [focused_touch fun index heq => hfocus ⟨index, heq⟩]
    exact he

end LivePage.Action

/-! ## A view -/

namespace View

/-- The user is in one element at most. -/
def OneFocused (v : View) : Prop :=
  ∀ (i j : Nat) (e e' : BoundElement), v[i]? = some e → v[j]? = some e' → e.focused → e'.focused → i = j

theorem oneFocused_focus (v : View) (index : Option Nat) : (v.focus index).OneFocused := by
  intro i j e e' he he' hfocused hfocused'
  rw [focus, List.getElem?_mapIdx] at he he'
  obtain ⟨_, -, rfl⟩ := Option.map_eq_some_iff.mp he
  obtain ⟨_, -, rfl⟩ := Option.map_eq_some_iff.mp he'
  have hi : some i = index := by simpa using hfocused
  have hj : some j = index := by simpa using hfocused'
  exact Option.some.inj (hi.trans hj.symm)

/-- On a page that was just opened the user is nowhere. -/
theorem focused_of_mem_ofDocument {root : Node} {e : BoundElement} (h : e ∈ ofDocument root) :
    e.key ≠ "" ∧ e.focused = false := by
  obtain ⟨n, -, he⟩ := List.mem_filterMap.mp h
  obtain ⟨hkey, hfocused, -⟩ := BoundElement.ofNode?_cases he
  exact ⟨hkey, hfocused⟩

theorem oneFocused_ofDocument (root : Node) : (ofDocument root).OneFocused := by
  intro i j e e' he _ hfocused
  rw [(focused_of_mem_ofDocument (List.mem_of_getElem? he)).2] at hfocused
  cases hfocused

end View

/-! ## A page -/

namespace LivePage

variable {p : LivePage} {i : Nat} {e : BoundElement} {a : Action}

/-- An action touches the elements, and then the data is shown or not, which
leaves the user alone. -/
theorem exists_spares_act (p : LivePage) (a : Action) :
    ∃ f, BoundElement.Spares f ∧
      ∀ i, (p.act a).view[i]? = (p.view[i]?).map fun e => f (a.touch i e) := by
  rcases p.act_forms a with ⟨s, -, hact⟩ | ⟨-, hact⟩
  · refine ⟨BoundElement.refresh s.store, BoundElement.spares_refresh s.store, fun i => ?_⟩
    rw [hact]
    simp [prepare, View.refresh, Function.comp_def]
  · refine ⟨id, BoundElement.spares_id, fun i => ?_⟩
    rw [hact]
    simp [prepare]

theorem oneFocused_act (h : p.view.OneFocused) (a : Action) : (p.act a).view.OneFocused := by
  by_cases hfocus : ∃ index, a = .focus index
  · obtain ⟨index, rfl⟩ := hfocus
    exact View.oneFocused_focus p.view index
  · have hnot : ∀ index, a ≠ .focus index := fun index heq => hfocus ⟨index, heq⟩
    obtain ⟨f, hf, hact⟩ := p.exists_spares_act a
    intro i j e e' he he' hfocused hfocused'
    rw [hact] at he he'
    obtain ⟨d, hd, rfl⟩ := Option.map_eq_some_iff.mp he
    obtain ⟨d', hd', rfl⟩ := Option.map_eq_some_iff.mp he'
    rw [hf.focused, Action.focused_touch hnot] at hfocused hfocused'
    exact h i j d d' hd hd' hfocused hfocused'

theorem keyed_act (h : ∀ e ∈ p.view, e.key ≠ "") (a : Action) :
    ∀ e ∈ (p.act a).view, e.key ≠ "" := by
  intro e he
  obtain ⟨f, hf, hact⟩ := p.exists_spares_act a
  obtain ⟨i, hi⟩ := List.mem_iff_getElem?.mp he
  rw [hact] at hi
  obtain ⟨d, hd, rfl⟩ := Option.map_eq_some_iff.mp hi
  rw [hf.key, (retyped_touch a i d).key]
  exact h d (List.mem_of_getElem? hd)

/-- A field that the user is in keeps what was typed, unless it is edited
itself, and it keeps it also when the user leaves. -/
theorem held_act (he : p.view[i]? = some e) (hkind : e.kind = .editable) (hfocused : e.focused)
    (hedits : ¬a.Edits i) :
    ∃ e', (p.act a).view[i]? = some e' ∧ e'.kind = .editable ∧ e'.value = e.value ∧
      (¬a.Leaves i → e'.focused) := by
  by_cases hleaves : a.Leaves i
  · cases a with
    | focus index =>
      have hview : (p.act (.focus index)).view[i]? = some { e with focused := some i == index } := by
        simp [act, View.focus, he]
      exact ⟨_, hview, hkind, rfl, absurd hleaves⟩
    | _ => cases hleaves
  · obtain ⟨f, hf, hact⟩ := p.exists_spares_act a
    have hkind' : (a.touch i e).kind = .editable := (retyped_touch a i e).kind.trans hkind
    have hfocused' : (a.touch i e).focused := Action.focused_touch_of_not_leaves hleaves hfocused
    refine ⟨a.touch i e, ?_, hkind', Action.value_touch hedits, fun _ => hfocused'⟩
    rw [hact, he, Option.map_some, hf.held _ hkind' hfocused']

theorem held_run (later : List Action) (he : p.view[i]? = some e) (hkind : e.kind = .editable)
    (hfocused : e.focused) (hlater : ∀ a ∈ later, ¬a.Edits i ∧ ¬a.Leaves i) :
    ∃ e', (p.run later).view[i]? = some e' ∧ e'.focused ∧ e'.value = e.value := by
  induction later generalizing p e with
  | nil => exact ⟨e, he, hfocused, rfl⟩
  | cons a later ih =>
    obtain ⟨⟨hedits, hleaves⟩, hrest⟩ := List.forall_mem_cons.mp hlater
    obtain ⟨e₁, he₁, hkind₁, hvalue₁, hfocused₁⟩ := held_act he hkind hfocused hedits
    obtain ⟨e', he', hfocused', hvalue'⟩ := ih he₁ hkind₁ (hfocused₁ hleaves) hrest
    exact ⟨e', he', hfocused', hvalue'.trans hvalue₁⟩

/-- A field that the user is not in takes up the data when it is shown. -/
theorem taken_up_act (hkeys : ∀ e ∈ p.view, e.key ≠ "") (he : p.view[i]? = some e)
    (hkind : e.kind = .editable) (hfocused : ¬e.focused) (ha : p.Refreshes a) :
    ∃ e', (p.act a).view[i]? = some e' ∧
      ∀ value, (p.act a).session.store.get? e.key = some value → e'.value = value := by
  have hnot : ∀ index, a ≠ .focus index := by
    rintro index rfl
    exact ha
  rcases p.act_forms a with ⟨s, -, hact⟩ | ⟨hempty, -⟩
  · rw [hact]
    refine ⟨(a.touch i e).refresh s.store, by simp [prepare, View.refresh, he], fun value hvalue => ?_⟩
    have hkind' : (a.touch i e).kind = .editable := (retyped_touch a i e).kind.trans hkind
    rw [BoundElement.refresh_of_some ((retyped_touch a i e).key ▸ hvalue),
      BoundElement.display_of_editable hkind', Action.focused_touch hnot, if_neg hfocused]
  · obtain ⟨d, hd, hkey⟩ := hempty ha
    exact absurd hkey (hkeys d hd)

/-- What the user types is not lost, on the page of any description and
whatever happens to it. The user is in one element at most. As long as this
is a field, no action changes what is in it but the edits of the field, and
it stays so over any number of actions in which the user does not leave it.
When the user is not in it, it takes up the data whenever the data is shown,
provided that there is a value under its key. -/
theorem typing_is_kept (source : String) (b : Bootstrap) (actions : List Action) :
    let p := (ofSource source b).run actions
    p.view.OneFocused ∧
      ∀ i e, p.view[i]? = some e → e.kind = .editable →
        (e.focused → ∀ a : Action, ¬a.Edits i →
          ∃ e', (p.act a).view[i]? = some e' ∧ e'.value = e.value) ∧
        (e.focused → ∀ later : List Action, (∀ a ∈ later, ¬a.Edits i ∧ ¬a.Leaves i) →
          ∃ e', (p.run later).view[i]? = some e' ∧ e'.focused ∧ e'.value = e.value) ∧
        (¬e.focused → ∀ a, p.Refreshes a →
          ∃ e', (p.act a).view[i]? = some e' ∧
            ∀ value, (p.act a).session.store.get? e.key = some value → e'.value = value) := by
  intro p
  have hone : p.view.OneFocused :=
    run_of_act (motive := fun p => p.view.OneFocused) (fun _ a h => oneFocused_act h a) actions
      (View.oneFocused_ofDocument _)
  have hkeys : ∀ e ∈ p.view, e.key ≠ "" :=
    run_of_act (motive := fun p => ∀ e ∈ p.view, e.key ≠ "") (fun _ a h => keyed_act h a) actions
      fun e he => (View.focused_of_mem_ofDocument he).1
  refine ⟨hone, fun i e he hkind => ⟨fun hfocused a hedits => ?_, fun hfocused later hlater => ?_,
    fun hfocused a ha => ?_⟩⟩
  · obtain ⟨e', he', -, hvalue, -⟩ := held_act he hkind hfocused hedits
    exact ⟨e', he', hvalue⟩
  · exact held_run later he hkind hfocused hlater
  · exact taken_up_act hkeys he hkind hfocused ha

/-- Two fields with one key. -/
def twoFields : String :=
  "wce_input() \x7b wce_bind(\"k\"); \x7d wce_slider() \x7b wce_bind(\"k\"); \x7d"

/-- The user types into the first field. -/
def drafting : List Action :=
  [.boot, .focus (some 0), .type 0 "draft"]

def drafted : LivePage :=
  (ofSource twoFields .empty).run drafting

/-- An edit of the second field changes the data that both follow. It is
shown in the second field, and the first one keeps what was typed, also when
a poll interval has passed. -/
theorem typing_is_kept_twoFields :
    (∃ e : BoundElement, drafted.view[0]? = some e ∧ e.kind = .editable ∧ e.focused ∧
      ¬(Action.change 1 "late").Edits 0 ∧
      (∃ e' : BoundElement, (drafted.act (.change 1 "late")).view[0]? = some e' ∧
        e'.value = e.value) ∧
      (∀ a ∈ [.change 1 "late", .advance 250], ¬Action.Edits 0 a ∧ ¬a.Leaves 0) ∧
      ∃ e' : BoundElement, (drafted.run [.change 1 "late", .advance 250]).view[0]? = some e' ∧
        e'.focused ∧ e'.value = e.value) ∧
    ∃ e : BoundElement, drafted.view[1]? = some e ∧ e.kind = .editable ∧ ¬e.focused ∧
      drafted.Refreshes (.change 1 "late") ∧
      (drafted.act (.change 1 "late")).session.store.get? e.key = some "late" ∧
      ∃ e' : BoundElement, (drafted.act (.change 1 "late")).view[1]? = some e' ∧
        e'.value = "late" := by
  have hview : drafted.view =
      [{ BoundElement.fresh "k" .editable with value := "draft", focused := true },
        .fresh "k" .editable] := by
    decide +kernel
  have hfirst : drafted.view[0]? =
      some { BoundElement.fresh "k" .editable with value := "draft", focused := true } := by
    rw [hview]
    rfl
  have hsecond : drafted.view[1]? = some (.fresh "k" .editable) := by
    rw [hview]
    rfl
  have hstore : (drafted.act (.change 1 "late")).session.store.get? "k" = some "late" := by
    decide +kernel
  have hedits : ¬(Action.change 1 "late").Edits 0 := by
    simp [Action.Edits]
  have hlater : ∀ a ∈ [.change 1 "late", .advance 250], ¬Action.Edits 0 a ∧ ¬a.Leaves 0 := by
    simp [Action.Edits, Action.Leaves]
  have hshown : drafted.Refreshes (.change 1 "late") := ⟨_, hsecond, rfl⟩
  obtain ⟨-, hkept⟩ := typing_is_kept twoFields .empty drafting
  obtain ⟨hstep, hrun, -⟩ := hkept 0 _ hfirst rfl
  obtain ⟨e', he', hvalue⟩ := (hkept 1 _ hsecond rfl).2.2 (by decide) _ hshown
  exact ⟨⟨_, hfirst, rfl, rfl, hedits, hstep rfl _ hedits, hlater, hrun rfl _ hlater⟩,
    _, hsecond, rfl, by decide, hshown, hstore, e', he', hvalue "late" hstore⟩

end LivePage

end PagePreview
