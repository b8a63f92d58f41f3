/-
PagePreview.Proofs.Backend.Writes — what happens to the data, key by key.

All that updates and events do to the data is to write texts under keys,
one after the other. What is written under a key depends on the text that
is there and on nothing else in the data, and a write does not lead to
another one. So the history of one key can be told without the others.

* `Change` — what is done to the text under a key, and `Change.replay`, the
  text after several changes.
* `Write` — a change with the key that it is aimed at.
* `Session.Call.writes` — the writes of an update or an event.
* `Session.get?_callAll` — the data after calls, key by key.
* `Session.extends_callAll` — no key is lost.
* `Effect.apply_comm` — effects with different targets commute.
* `Session.callAll_by_key` — all of it together.
-/
import Mathlib
import PagePreview.Backend.Session
import PagePreview.Proofs.Table

namespace PagePreview

/-! ## Keys that stay -/

/-- The data has all keys that it had before. -/
def Store.Extends (s' s : Store) : Prop :=
  ∀ key, s.contains key → s'.contains key

namespace Store.Extends

theorem refl (s : Store) : s.Extends s := fun _ h => h

theorem trans {a b c : Store} (hab : a.Extends b) (hbc : b.Extends c) : a.Extends c :=
  fun key h => hab key (hbc key h)

theorem get?_eq_none {s' s : Store} (h : s'.Extends s) {key : String}
    (hnone : s'.get? key = none) : s.get? key = none := by
  by_contra hne
  have hcontains := h key (Option.isSome_iff_ne_none.mpr hne)
  rw [Table.contains, hnone] at hcontains
  cases hcontains

theorem insert (s : Store) (key value : String) : Store.Extends (s.insert key value) s := by
  intro k h
  rw [Table.contains, Table.get?_insert]
  split_ifs
  · rfl
  · exact h

theorem foldl {α : Type} {f : Store → α → Store} (hf : ∀ s x, (f s x).Extends s) :
    ∀ (xs : List α) (s : Store), (xs.foldl f s).Extends s
  | [], s => refl s
  | x :: xs, s => (foldl hf xs (f s x)).trans (hf s x)

end Store.Extends

/-! ## Changes of a text -/

/-- What is done to the text under a key. -/
inductive Change
  /-- It becomes a text, whatever it was. -/
  | put (text : String)
  /-- A number is added to it. -/
  | add (amount : Double)
  /-- True becomes false, and anything else becomes true. -/
  | flip
  deriving DecidableEq

namespace Change

/-- The text after a change; no text counts as zero and as not true. -/
def text (old : Option String) : Change → String
  | put text => text
  | add amount => (((old.map Double.ofPageText).getD (.zero false)).add amount).pageText
  | flip => if old = some "true" then "false" else "true"

/-- The text after several changes. -/
def replay (changes : List Change) (old : Option String) : Option String :=
  changes.foldl (fun old c => some (c.text old)) old

@[simp] theorem replay_nil (old : Option String) : replay [] old = old := rfl

@[simp] theorem replay_cons (c : Change) (changes : List Change) (old : Option String) :
    replay (c :: changes) old = replay changes (some (c.text old)) := rfl

end Change

/-! ## Writes -/

/-- A change of the text under a key. -/
structure Write where
  key : String
  change : Change
  deriving DecidableEq

namespace Write

def apply (s : Store) (w : Write) : Store :=
  s.insert w.key (w.change.text (s.get? w.key))

/-- The changes that are aimed at a key, in order. -/
def changesTo (k : String) (ws : List Write) : List Change :=
  (ws.filter (·.key = k)).map (·.change)

theorem get?_apply (s : Store) (w : Write) (k : String) :
    (apply s w).get? k = if k = w.key then some (w.change.text (s.get? k)) else s.get? k := by
  rw [apply, Table.get?_insert]
  split_ifs with h
  · rw [h]
  · rfl

/-- The text under a key after writes comes from the text that was there. -/
theorem get?_foldl_apply (ws : List Write) (s : Store) (k : String) :
    (ws.foldl apply s).get? k = Change.replay (changesTo k ws) (s.get? k) := by
  induction ws generalizing s with
  | nil => rfl
  | cons w ws ih =>
    rw [List.foldl_cons, ih, get?_apply]
    by_cases h : k = w.key
    · simp [changesTo, h]
    · simp [changesTo, h, Ne.symm h]

theorem extends_apply (s : Store) (w : Write) : (apply s w).Extends s :=
  .insert s w.key _

theorem extends_foldl_apply (ws : List Write) (s : Store) : (ws.foldl apply s).Extends s :=
  .foldl extends_apply ws s

/-- Writes that do the same to each key leave the same data. -/
theorem foldl_apply_congr {ws ws' : List Write} (h : ∀ k, changesTo k ws = changesTo k ws')
    (s : Store) : ws.foldl apply s = ws'.foldl apply s := by
  refine Table.ext_get? fun k => ?_
  rw [get?_foldl_apply, get?_foldl_apply, h k]

/-- Writes to different keys commute. -/
theorem apply_comm {w w' : Write} (h : w.key ≠ w'.key) (s : Store) :
    apply (apply s w) w' = apply (apply s w') w := by
  have hchanges : ∀ k, changesTo k [w, w'] = changesTo k [w', w] := by
    intro k
    by_cases hk : w.key = k
    · have hk' : w'.key ≠ k := fun heq => h (hk.trans heq.symm)
      simp [changesTo, hk, hk']
    · simp [changesTo, List.filter_cons, hk]
  exact foldl_apply_congr hchanges s

end Write

/-! ## Effects -/

namespace Effect

/-- The write that an effect makes, if it does anything. -/
def write? (ctx : Context) : Effect → Option Write
  | set key val => some ⟨key, .put val.pageText⟩
  | setTemplate key template => some ⟨key, .put (Template.render template ctx)⟩
  | inc key amount => some ⟨key, .add (delta amount)⟩
  | toggle key => some ⟨key, .flip⟩
  | unrecognized => none

theorem apply_eq (ctx : Context) (s : Store) (e : Effect) :
    e.apply ctx s = (e.write? ctx).toList.foldl Write.apply s := by
  cases e <;> rfl

theorem key_write? (ctx : Context) (e : Effect) : (e.write? ctx).map (·.key) = e.target? := by
  cases e <;> rfl

theorem foldl_apply (ctx : Context) (es : List Effect) (s : Store) :
    es.foldl (apply ctx) s = (es.filterMap (write? ctx)).foldl Write.apply s := by
  induction es generalizing s with
  | nil => rfl
  | cons e es ih =>
    rw [List.foldl_cons, ih, apply_eq, List.filterMap_cons]
    cases e.write? ctx <;> rfl

/-- Effects with different targets commute. -/
theorem apply_comm {e e' : Effect} (h : e.target? ≠ e'.target?) (ctx ctx' : Context) (s : Store) :
    e'.apply ctx' (e.apply ctx s) = e.apply ctx (e'.apply ctx' s) := by
  rw [← key_write? ctx, ← key_write? ctx'] at h
  simp only [apply_eq]
  cases hw : e.write? ctx with
  | none => rfl
  | some w =>
    cases hw' : e'.write? ctx' with
    | none => rfl
    | some w' =>
      have hne : w.key ≠ w'.key := by simpa [hw, hw'] using h
      exact Write.apply_comm hne s

end Effect

/-! ## Calls -/

namespace Session

/-- What is asked of a backend from outside. -/
inductive Call
  /-- A key is given a value. -/
  | update (key val : String)
  /-- An event is triggered. -/
  | trigger (event arg : String)

/-- The effects under a name, in order. -/
def effectsUnder (table : Table EffectSet) (name : String) : List Effect :=
  ((table.get? name).map (·.effects)).getD []

theorem run_eq (table : Table EffectSet) (name : String) (ctx : Context) (s : Store) :
    run table name ctx s =
      ((effectsUnder table name).filterMap (Effect.write? ctx)).foldl Write.apply s := by
  rw [← Effect.foldl_apply, run, effectsUnder]
  cases table.get? name <;> rfl

/-- The backend after a call. -/
def call (s : Session) : Call → Session
  | .update key val => (s.update key val).state
  | .trigger event arg => (s.trigger event arg).state

/-- The backend after calls. -/
def callAll (s : Session) (calls : List Call) : Session :=
  calls.foldl call s

namespace Call

/-- The value that an update gives to its key. -/
def given : Call → List Write
  | update key val => [⟨key, .put val⟩]
  | trigger .. => []

/-- The effects that a call runs: the hook of the key that is updated, or the
handler of the event. -/
def effects (s : Session) : Call → List Effect
  | update key _ => effectsUnder s.modelUpdateEffects key
  | trigger event _ => effectsUnder s.handlerEffects event

def context : Call → Context
  | update key val => .ofUpdate key val
  | trigger _ arg => .ofTrigger arg

/-- The writes of a call, in order. -/
def writes (s : Session) (c : Call) : List Write :=
  c.given ++ (c.effects s).filterMap (Effect.write? c.context)

/-- The key that a call updates, if it is an update. -/
def updated? : Call → Option String
  | update key _ => some key
  | trigger .. => none

/-- The call updates a key, or runs an effect with that target. -/
def Touches (s : Session) (k : String) (c : Call) : Prop :=
  c.updated? = some k ∨ ∃ e ∈ c.effects s, e.target? = some k

instance (s : Session) (k : String) (c : Call) : Decidable (c.Touches s k) :=
  inferInstanceAs (Decidable (_ ∨ _))

theorem touches_of_mem_writes {s : Session} {c : Call} {w : Write} (h : w ∈ c.writes s) :
    c.Touches s w.key := by
  rcases List.mem_append.mp h with hgiven | heffect
  · cases c with
    | update key val =>
      obtain rfl := List.mem_singleton.mp hgiven
      exact .inl rfl
    | trigger event arg => cases hgiven
  · obtain ⟨e, he, hw⟩ := List.mem_filterMap.mp heffect
    refine .inr ⟨e, he, ?_⟩
    rw [← Effect.key_write? c.context, hw]
    rfl

end Call

theorem store_call (s : Session) (c : Call) :
    (s.call c).store = (c.writes s).foldl Write.apply s.store := by
  cases c with
  | update key val => exact run_eq s.modelUpdateEffects key _ _
  | trigger event arg => exact run_eq s.handlerEffects event _ _

theorem extends_call (s : Session) (c : Call) : (s.call c).store.Extends s.store := by
  rw [store_call]
  exact Write.extends_foldl_apply _ _

/-- No call changes what later calls do. -/
theorem writes_call (s : Session) (c d : Call) : d.writes (s.call c) = d.writes s := by
  cases c <;> cases d <;> rfl

theorem store_callAll (calls : List Call) (s : Session) :
    (s.callAll calls).store = (calls.flatMap (·.writes s)).foldl Write.apply s.store := by
  induction calls generalizing s with
  | nil => rfl
  | cons c calls ih =>
    have hrest : calls.flatMap (·.writes (s.call c)) = calls.flatMap (·.writes s) :=
      congrArg calls.flatMap (funext fun d => s.writes_call c d)
    rw [List.flatMap_cons, List.foldl_append, ← store_call, ← hrest]
    exact ih (s.call c)

/-- The text under a key after calls is what the writes to that key make of
the text that was there. -/
theorem get?_callAll (s : Session) (calls : List Call) (k : String) :
    (s.callAll calls).store.get? k =
      Change.replay (Write.changesTo k (calls.flatMap (·.writes s))) (s.store.get? k) := by
  rw [store_callAll, Write.get?_foldl_apply]

/-- The backends have the same data, the same hooks of the keys that are
updated, and the same handlers of the events that are triggered. -/
structure AgreeOn (calls : List Call) (s t : Session) : Prop where
  store : t.store = s.store
  hooks : ∀ key val, .update key val ∈ calls →
    t.modelUpdateEffects.get? key = s.modelUpdateEffects.get? key
  handlers : ∀ event arg, .trigger event arg ∈ calls →
    t.handlerEffects.get? event = s.handlerEffects.get? event

theorem AgreeOn.writes_eq {calls : List Call} {s t : Session} (h : AgreeOn calls s t) {c : Call}
    (hc : c ∈ calls) : c.writes t = c.writes s := by
  cases c with
  | update key val =>
    simp only [Call.writes, Call.effects, effectsUnder, h.hooks key val hc]
  | trigger event arg =>
    simp only [Call.writes, Call.effects, effectsUnder, h.handlers event arg hc]

/-- No hook counts but those of the keys that are updated by a call, and no
handler but those of the events that are triggered. -/
theorem AgreeOn.store_callAll_eq {calls : List Call} {s t : Session} (h : AgreeOn calls s t) :
    (t.callAll calls).store = (s.callAll calls).store := by
  rw [store_callAll, store_callAll, h.store]
  congr 1
  exact List.flatMap_congr fun c hc => h.writes_eq hc

theorem extends_callAll (s : Session) (calls : List Call) :
    (s.callAll calls).store.Extends s.store := by
  rw [store_callAll]
  exact Write.extends_foldl_apply _ _

theorem get?_callAll_of_not_touches {s : Session} {calls : List Call} {k : String}
    (h : ∀ c ∈ calls, ¬c.Touches s k) : (s.callAll calls).store.get? k = s.store.get? k := by
  have hnone : Write.changesTo k (calls.flatMap (·.writes s)) = [] := by
    refine List.map_eq_nil_iff.mpr (List.filter_eq_nil_iff.mpr fun w hw => ?_)
    obtain ⟨c, hc, hw⟩ := List.mem_flatMap.mp hw
    intro hk
    obtain rfl := of_decide_eq_true hk
    exact h c hc (Call.touches_of_mem_writes hw)
  rw [get?_callAll, hnone, Change.replay_nil]

/-- Each key has a history of its own. After any updates and events the text
under a key is what the writes to that key make of the text that was there:
the values that the key was given, and the effects with that target of the
hooks of updated keys and of the handlers of triggered events, in order and
each in the context of its call. So effects with different targets commute;
a hook runs for an update of its own key alone, and not because another hook
writes to that key; no key is lost; and a key that is neither updated nor a
target keeps its text. -/
theorem callAll_by_key (s : Session) (calls : List Call) :
    (∀ k, (s.callAll calls).store.get? k =
      Change.replay (Write.changesTo k (calls.flatMap (·.writes s))) (s.store.get? k)) ∧
    (∀ (e e' : Effect) (ctx ctx' : Context) (t : Store), e.target? ≠ e'.target? →
      e'.apply ctx' (e.apply ctx t) = e.apply ctx (e'.apply ctx' t)) ∧
    (∀ t, AgreeOn calls s t → (t.callAll calls).store = (s.callAll calls).store) ∧
    (∀ k, s.store.contains k → (s.callAll calls).store.contains k) ∧
    ∀ k, (∀ c ∈ calls, ¬c.Touches s k) → (s.callAll calls).store.get? k = s.store.get? k :=
  ⟨s.get?_callAll calls, fun _ _ ctx ctx' t h => Effect.apply_comm h ctx ctx' t,
    fun _ h => h.store_callAll_eq, s.extends_callAll calls,
    fun _ => get?_callAll_of_not_touches⟩

/-- A backend in which the hook of one key writes to another key, which has
a hook too. -/
def chained (otherHook : EffectSet) : Session :=
  { ofBootstrap .empty with
    store := .ofList [("n", "1"), ("free", "x")]
    handlerEffects := .ofList [("go", .one (.inc "n" (some .one)))]
    modelUpdateEffects := .ofList
      [("name", .many [.inc "n" none, .setTemplate "other" "$\x7bval\x7d", .toggle "flag"]),
        ("other", otherHook)] }

/-- The hook of the other key never runs, whatever it is. -/
theorem callAll_by_key_chained :
    let s := chained (.one (.set "n" (.string "lost")))
    let t := chained (.many [])
    let calls : List Call := [.update "name" "Ada", .trigger "go" ""]
    (s.callAll calls).store.get? "n" = some "3" ∧
      (s.callAll calls).store.get? "other" = some "Ada" ∧
      ((Effect.toggle "flag").target? ≠ (Effect.inc "n" none).target? ∧
        (Effect.inc "n" none).apply (.ofTrigger "") ((Effect.toggle "flag").apply (.ofTrigger "")
          s.store) =
        (Effect.toggle "flag").apply (.ofTrigger "") ((Effect.inc "n" none).apply (.ofTrigger "")
          s.store)) ∧
      (AgreeOn calls s t ∧ (t.callAll calls).store = (s.callAll calls).store) ∧
      (s.store.contains "n" ∧ (s.callAll calls).store.contains "n") ∧
      (∀ c ∈ calls, ¬c.Touches s "free") ∧
      (s.callAll calls).store.get? "free" = s.store.get? "free" := by
  intro s t calls
  obtain ⟨hkeys, hcomm, hagree, hkept, hfree⟩ := s.callAll_by_key calls
  have hagrees : AgreeOn calls s t := by
    refine ⟨rfl, fun key val h => ?_, fun _ _ _ => rfl⟩
    simp only [calls, List.mem_cons, List.not_mem_nil, or_false, reduceCtorEq] at h
    cases h
    rfl
  have huntouched : ∀ c ∈ calls, ¬c.Touches s "free" := by decide +kernel
  refine ⟨?_, ?_, ⟨by decide, hcomm _ _ _ _ _ (by decide)⟩, ⟨hagrees, hagree t hagrees⟩,
    ⟨by decide, hkept "n" (by decide)⟩, huntouched, hfree "free" huntouched⟩
  · rw [hkeys]
    decide +kernel
  · rw [hkeys]
    decide +kernel

end Session

end PagePreview
