/-
PagePreview.Proofs.Analysis.Relocate — the analysis of words at other
places.

What the analysis finds among words that were moved is what it finds among
the words themselves, moved in the same way. So nothing but the ranges that
it reports hangs on where the words stand.

* `Analysis.Mark.ofTokens_relocate` — the marks of words that were moved.
* `Analysis.ofMarks_relocate` — and what is found among them.
-/
import PagePreview.Proofs.Analysis.Mark
import PagePreview.Proofs.Source.Relocate

namespace PagePreview

variable (f : Nat → Nat)

def PropertyUsage.relocate (u : PropertyUsage) : PropertyUsage :=
  { u with
    value := u.value.map fun value => (value.1, value.2.relocate f)
    callSpan := u.callSpan.relocate f }

def UnknownCall.relocate (c : UnknownCall) : UnknownCall :=
  ⟨c.name, c.span.relocate f⟩

namespace Analysis

/-- The analysis with every range in it moved. -/
def relocate (found : Analysis) : Analysis where
  properties := found.properties.map (PropertyUsage.relocate f)
  unknownCalls := found.unknownCalls.map (UnknownCall.relocate f)
  braceBalance := found.braceBalance

namespace Mark

def relocate : Mark → Mark
  | property p call => property p (call.relocate f)
  | element call => element (call.relocate f)
  | opening owner => opening owner
  | closing => closing

theorem ofTokens_relocate (ts : List Token) :
    ofTokens (ts.map (Token.relocate f)) = (ofTokens ts).map (relocate f) := by
  induction ts using walk_induction with
  | nil => rw [List.map_nil, ofTokens_nil, List.map_nil]
  | property ts p call rest hread hp ih =>
    have hread' := CallSite.read?_relocate f ts
    rw [hread] at hread'
    rw [ofTokens_property hread hp, ofTokens_property hread' hp, List.map_cons, ih]
    rfl
  | leaf ts call rest hread he hblock ih =>
    have hread' := CallSite.read?_relocate f ts
    have hblock' := openBlock?_relocate f rest
    rw [hread] at hread'
    rw [hblock] at hblock'
    rw [ofTokens_leaf hread he hblock, ofTokens_leaf hread' he hblock', List.map_cons, ih]
    rfl
  | block ts call rest brace inner hread he hblock ih =>
    have hread' := CallSite.read?_relocate f ts
    have hblock' := openBlock?_relocate f rest
    rw [hread] at hread'
    rw [hblock] at hblock'
    rw [ofTokens_block hread he hblock, ofTokens_block hread' he hblock', List.map_cons,
      List.map_cons, ih inner (Nat.le_refl _)]
    rfl
  | opening brace rest ih =>
    rw [ofTokens_opening, List.map_cons, List.map_cons, ← ih]
    exact ofTokens_opening
  | closing brace rest ih =>
    rw [ofTokens_closing, List.map_cons, List.map_cons, ← ih]
    exact ofTokens_closing
  | other t rest hread hopening hclosing ih =>
    have hread' := CallSite.read?_relocate f (t :: rest)
    rw [hread] at hread'
    rw [ofTokens_other hread hopening hclosing, ← ih]
    exact ofTokens_other hread' hopening hclosing

theorem balance_relocate (m : Mark) : (m.relocate f).balance = m.balance := by
  cases m <;> rfl

theorem totalBalance_relocate (marks : List Mark) :
    totalBalance (marks.map (relocate f)) = totalBalance marks := by
  induction marks with
  | nil => rfl
  | cons m marks ih =>
    rw [List.map_cons, totalBalance_cons, totalBalance_cons, balance_relocate, ih]

theorem unknownCall?_relocate (sourceEnd : Nat) (m : Mark) :
    (m.relocate f).unknownCall? (f sourceEnd) =
      (m.unknownCall? sourceEnd).map (UnknownCall.relocate f) := by
  cases m with
  | element call =>
    have hname : (call.relocate f).name = call.name := rfl
    simp only [relocate, unknownCall?, hname, CallSite.span_relocate]
    split <;> rfl
  | property p call => rfl
  | opening owner => rfl
  | closing => rfl

end Mark

theorem usages_relocate (sourceEnd : Nat) (blocks : List NodeKind) (marks : List Mark) :
    usages (f sourceEnd) blocks (marks.map (Mark.relocate f)) =
      (usages sourceEnd blocks marks).map (PropertyUsage.relocate f) := by
  induction marks generalizing blocks with
  | nil => rfl
  | cons m marks ih =>
    cases m with
    | property p call =>
      show PropertyUsage.mk p (call.relocate f).firstText? ((call.relocate f).span _) _ ::
        usages _ _ _ = _
      rw [CallSite.firstText?_relocate, CallSite.span_relocate, ih]
      rfl
    | element call => exact ih blocks
    | opening owner => exact ih _
    | closing => exact ih _

theorem ofMarks_relocate (sourceEnd : Nat) (marks : List Mark) :
    ofMarks (f sourceEnd) (marks.map (Mark.relocate f)) =
      (ofMarks sourceEnd marks).relocate f := by
  simp only [ofMarks, relocate, usages_relocate, Mark.totalBalance_relocate, List.filterMap_map,
    List.map_filterMap]
  congr 2
  funext m
  exact Mark.unknownCall?_relocate f sourceEnd m

end Analysis

end PagePreview
