/-
PagePreview.Proofs.Backend.Counter — counters count exactly.

A counter is kept as text, so that each step reads a number, adds to it and
writes it again. Up to 2⁵³ none of the three loses anything: the text of an
integer is read as the integer, the sum is exact, and the integer is its own
shortest decimal. What a counter has come to is then the sum of all steps,
in whatever order they are taken.

* `Effect.Adds`, `Effect.Counts` — steps and counters.
* `Effect.Adds.get?_apply` — one step.
* `Effect.get?_foldl_adds` — several steps, by induction.
* `EffectSet.apply_adds` — a list of effects, and the same in another order.
-/
import PagePreview.Backend.Effect
import PagePreview.Proofs.Number.Sum
import PagePreview.Proofs.Table

namespace PagePreview

namespace Effect

/-! ## Steps and counters -/

/-- The effect adds an integer to the number under a key. -/
inductive Adds (key : String) : Effect → Int → Prop
  | one : Adds key (.inc key none) 1
  | whole {x : Double} {d : Int} : x.value? = some (d : ℚ) → Adds key (.inc key (some x)) d

/-- The integer under a key; where there is nothing, it is zero. -/
def Counts (s : Store) (key : String) (n : Int) : Prop :=
  s.get? key = some (toString n) ∨ n = 0 ∧ s.get? key = none

theorem Adds.exists_amount {key : String} {e : Effect} {d : Int} (h : Adds key e d) :
    ∃ amount, e = .inc key amount ∧ (delta amount).value? = some (d : ℚ) := by
  cases h with
  | one =>
    refine ⟨none, rfl, ?_⟩
    norm_num [delta, Double.one, Double.value?, Double.signed]
  | @whole x d hx =>
    refine ⟨some x, rfl, ?_⟩
    rw [delta, if_pos (Double.isFinite_of_value? hx), hx]

/-- The number under a key, as it is read. -/
theorem Counts.number {s : Store} {key : String} {n : Int} (h : Counts s key n)
    (hn : n.natAbs ≤ 2 ^ 53) :
    ((s.get? key).map Double.ofPageText).getD (.zero false) = .ofInt n := by
  rcases h with htext | ⟨rfl, hnone⟩
  · rw [htext]
    exact Double.ofPageText_toString hn
  · rw [hnone]
    rfl

/-- One step of a counter. -/
theorem Adds.get?_apply {key : String} {e : Effect} {d : Int} (h : Adds key e d) (ctx : Context)
    {s : Store} {n : Int} (hs : Counts s key n) (hn : n.natAbs ≤ 2 ^ 53)
    (hsum : (n + d).natAbs ≤ 2 ^ 53) (k : String) :
    (e.apply ctx s).get? k = if k = key then some (toString (n + d)) else s.get? k := by
  obtain ⟨amount, rfl, hamount⟩ := h.exists_amount
  have htext : (Effect.inc key amount).newText ctx (s.get? key) = toString (n + d) := by
    rw [newText, hs.number hn, Double.add_eq_ofInt hn hamount hsum, Double.pageText_ofInt hsum]
  rw [apply, target?]
  dsimp only
  rw [Table.get?_insert, htext]

/-- From 2⁵³ on the next integer is no double, and the step is lost. -/
example : ((Effect.inc "n" none).apply (.ofTrigger "")
    (Table.empty.insert "n" "9007199254740992")).get? "n" = some "9007199254740992" := by
  decide +kernel

theorem Adds.unique {key : String} {e : Effect} {d d' : Int} (h : Adds key e d)
    (h' : Adds key e d') : d = d' := by
  obtain ⟨amount, rfl, hamount⟩ := h.exists_amount
  obtain ⟨amount', heq, hamount'⟩ := h'.exists_amount
  obtain rfl : amount = amount' := by injection heq
  have hcast : (d : ℚ) = d' := Option.some.inj (hamount.symm.trans hamount')
  exact_mod_cast hcast

/-- The integer and all sums on the way are at most 2⁵³. -/
def InRange (n : Int) (ds : List Int) : Prop :=
  ∀ t ∈ ds.scanl (· + ·) n, t.natAbs ≤ 2 ^ 53

theorem inRange_cons {n d : Int} {ds : List Int} :
    InRange n (d :: ds) ↔ n.natAbs ≤ 2 ^ 53 ∧ InRange (n + d) ds := by
  simp [InRange, List.scanl_cons]

theorem InRange.first {n : Int} {ds : List Int} (h : InRange n ds) : n.natAbs ≤ 2 ^ 53 :=
  h n (by cases ds <;> simp [List.scanl_cons])

/-- A counter after several steps. -/
theorem get?_foldl_adds (ctx : Context) {key : String} {es : List Effect} {ds : List Int}
    (h : List.Forall₂ (Adds key) es ds) {s : Store} {n : Int} (hs : Counts s key n)
    (hrange : InRange n ds) (k : String) :
    (es.foldl (apply ctx) s).get? k =
      if k = key ∧ es ≠ [] then some (toString (n + ds.sum)) else s.get? k := by
  induction h generalizing s n with
  | nil => simp
  | @cons e d es ds hadds hrest ih =>
    obtain ⟨hn, hrange⟩ := inRange_cons.mp hrange
    have hstep := hadds.get?_apply ctx hs hn hrange.first
    have hcounts : Counts (e.apply ctx s) key (n + d) := .inl ((hstep key).trans (if_pos rfl))
    rw [List.foldl_cons, ih hcounts hrange, hstep]
    by_cases hk : k = key
    · cases hrest with
      | nil => simp [hk]
      | cons => simp [hk, add_assoc]
    · simp [hk]

end Effect

namespace EffectSet

/-- Effects that add to a counter leave it at the sum, and leave everything
else as it is. In another order they leave the same, if no sum on the way is
beyond 2⁵³. -/
theorem apply_adds {key : String} {es : EffectSet} {ds : List Int} {s : Store} {n : Int}
    (hadds : List.Forall₂ (Effect.Adds key) es.effects ds) (hs : Effect.Counts s key n)
    (hrange : Effect.InRange n ds) (ctx : Context) :
    (∀ k, (es.apply ctx s).get? k =
      if k = key ∧ es.effects ≠ [] then some (toString (n + ds.sum)) else s.get? k) ∧
    ∀ (es' : EffectSet) (ds' : List Int) (ctx' : Context), es'.effects.Perm es.effects →
      List.Forall₂ (Effect.Adds key) es'.effects ds' → Effect.InRange n ds' →
        es'.apply ctx' s = es.apply ctx s := by
  refine ⟨Effect.get?_foldl_adds ctx hadds hs hrange, fun es' ds' ctx' hperm hadds' hrange' => ?_⟩
  have hsum : ds'.sum = ds.sum := by
    obtain ⟨ds'', hadds'', hperm'⟩ := List.perm_comp_forall₂ hperm hadds
    have hright : Relator.RightUnique (Effect.Adds key) := fun _ _ _ h h' => h.unique h'
    rw [List.right_unique_forall₂' hright hadds' hadds'', hperm'.sum_eq]
  have hnil : es'.effects = [] ↔ es.effects = [] := by
    rw [← List.length_eq_zero_iff, hperm.length_eq, List.length_eq_zero_iff]
  refine Table.ext_get? fun k => ?_
  rw [apply, apply, Effect.get?_foldl_adds ctx' hadds' hs hrange',
    Effect.get?_foldl_adds ctx hadds hs hrange, hsum]
  simp only [ne_eq, hnil]

/-- Up one, down three, up one. -/
theorem apply_adds_mixed :
    List.Forall₂ (Effect.Adds "n") [.inc "n" none, .inc "n" (some (.ofInt (-3))), .inc "n" none]
      [1, -3, 1] ∧
    Effect.Counts Table.empty "n" 0 ∧ Effect.InRange 0 [1, -3, 1] ∧
    ((many [.inc "n" none, .inc "n" (some (.ofInt (-3))), .inc "n" none]).apply (.ofTrigger "")
      Table.empty).get? "n" = some "-1" := by
  have hadds : List.Forall₂ (Effect.Adds "n")
      [.inc "n" none, .inc "n" (some (.ofInt (-3))), .inc "n" none] [1, -3, 1] :=
    .cons .one (.cons (.whole (Double.value?_ofInt (by decide))) (.cons .one .nil))
  have hcounts : Effect.Counts Table.empty "n" 0 := .inr ⟨rfl, rfl⟩
  have hrange : Effect.InRange 0 [1, -3, 1] := by
    unfold Effect.InRange
    decide
  have heffects : List.Forall₂ (Effect.Adds "n")
      (many [.inc "n" none, .inc "n" (some (.ofInt (-3))), .inc "n" none]).effects [1, -3, 1] :=
    hadds
  have hresult := (apply_adds heffects hcounts hrange (.ofTrigger "")).1 "n"
  exact ⟨hadds, hcounts, hrange, hresult.trans (by decide +kernel)⟩

end EffectSet

end PagePreview
