/-
PagePreview.Proofs.Analysis.Mark — the analysis, step by step, and its lock
step with the reading of the document.

The analysis and the reading go over the same tokens, but each has its own
way with braces. The analysis notes down every brace. The reading passes
over an opening brace that does not follow an element, and over every
block that nests too deep.

* `ofTokens_nil` … `ofTokens_other` — the marks of the analysis, one
  equation for each step of `walk_induction`.
* `Document.Mark.counterpart` — the marks of the analysis that stand where
  a mark of the reading stands.
* `filter_ofTokens_eq_flatMap_counterpart` — unless something nests too
  deep, the marks of the analysis are the counterparts of the marks of the
  reading, with an opening brace here and there that follows no element.
-/
import PagePreview.Analysis
import PagePreview.Proofs.Document.Mark

namespace PagePreview

namespace Analysis.Mark

/-! ## The steps of the analysis -/

section Steps

variable {ts rest inner : List Token} {call : CallSite} {brace : Span}

theorem ofTokens_nil : ofTokens [] = [] := by
  rw [ofTokens]
  split
  · next h => simp [CallSite.read?_nil] at h
  · rfl

theorem ofTokens_property {p : Property} (hread : CallSite.read? ts = some (call, rest))
    (hp : Call.resolve call.name = .property p) :
    ofTokens ts = property p call :: ofTokens rest := by
  rw [ofTokens]
  split
  · next h =>
    obtain ⟨rfl, rfl⟩ : _ ∧ _ := by simpa [hread] using h
    simp only [hp]
  · next h => simp [hread] at h

theorem ofTokens_leaf (hread : CallSite.read? ts = some (call, rest)) (he : call.IsElement)
    (hblock : openBlock? rest = none) :
    ofTokens ts = element call :: ofTokens rest := by
  rw [ofTokens]
  split
  · next h =>
    obtain ⟨rfl, rfl⟩ : _ ∧ _ := by simpa [hread] using h
    split
    · next p hp => exact absurd hp (he p)
    · split
      · next hb => simp [hblock] at hb
      · rfl
  · next h => simp [hread] at h

/-- A block that follows its element is of the element's kind. -/
theorem ofTokens_block (hread : CallSite.read? ts = some (call, rest)) (he : call.IsElement)
    (hblock : openBlock? rest = some (brace, inner)) :
    ofTokens ts =
      element call :: opening (some (Call.resolve call.name).nodeKind) :: ofTokens inner := by
  rw [ofTokens]
  split
  · next h =>
    obtain ⟨rfl, rfl⟩ : _ ∧ _ := by simpa [hread] using h
    split
    · next p hp => exact absurd hp (he p)
    · split
      · next hb =>
        obtain ⟨rfl, rfl⟩ : _ ∧ _ := by simpa [hblock] using hb
        rfl
      · next hb => simp [hblock] at hb
  · next h => simp [hread] at h

theorem ofTokens_opening :
    ofTokens (⟨.punct '{', brace⟩ :: rest) = opening none :: ofTokens rest := by
  rw [ofTokens]
  split
  · next h => simp [CallSite.read?_punct] at h
  · simp [Token.isPunct]

theorem ofTokens_closing :
    ofTokens (⟨.punct '}', brace⟩ :: rest) = closing :: ofTokens rest := by
  rw [ofTokens]
  split
  · next h => simp [CallSite.read?_punct] at h
  · simp [Token.isPunct]

theorem ofTokens_other {t : Token} (hread : CallSite.read? (t :: rest) = none)
    (hopening : t.isPunct '{' = false) (hclosing : t.isPunct '}' = false) :
    ofTokens (t :: rest) = ofTokens rest := by
  rw [ofTokens]
  split
  · next h => simp [hread] at h
  · simp [hopening, hclosing]

end Steps

end Analysis.Mark

/-! ## Lock step -/

namespace Document.Mark

/-- What the analysis notes down where the reading notes down a mark. -/
def counterpart : Mark → List Analysis.Mark
  | property p call => [.property p call]
  | leaf _ call => [.element call]
  | opening kind call => [.element call, .opening (some kind)]
  | closing => [.closing]
  | problem _ => []

/-- Nothing nests too deep. -/
def Shallow (marks : List Mark) : Prop :=
  ∀ p, problem p ∈ marks → p.fault ≠ .nestingTooDeep

theorem Shallow.of_append {ms ns : List Mark} (h : Shallow (ms ++ ns)) : Shallow ns :=
  fun p hp => h p (List.mem_append_right ms hp)

theorem Shallow.of_cons {m : Mark} {ms : List Mark} (h : Shallow (m :: ms)) : Shallow ms :=
  fun p hp => h p (List.mem_cons_of_mem m hp)

theorem flatMap_counterpart_ofArguments (sourceEnd : Nat) (call : CallSite) :
    (ofArguments sourceEnd call).flatMap counterpart = [] := by
  unfold ofArguments
  split <;> rfl

/-- The analysis is in lock step with the reading, apart from opening
braces that follow no element. -/
theorem filter_ofTokens_eq_flatMap_counterpart (sourceEnd depth : Nat) (ts : List Token)
    (h : Shallow (ofTokens sourceEnd depth ts)) :
    (Analysis.Mark.ofTokens ts).filter (· ≠ .opening none) =
      (ofTokens sourceEnd depth ts).flatMap counterpart := by
  induction ts using walk_induction generalizing depth with
  | nil =>
    rw [ofTokens_nil, Analysis.Mark.ofTokens_nil]
    simp [counterpart]
  | property ts p call rest hread hp ih =>
    rw [ofTokens_property hread hp] at h ⊢
    rw [Analysis.Mark.ofTokens_property hread hp, List.flatMap_append,
      flatMap_counterpart_ofArguments, List.flatMap_cons, ← ih depth h.of_append.of_cons]
    rfl
  | leaf ts call rest hread he hblock ih =>
    rw [ofTokens_leaf hread he hblock] at h ⊢
    rw [Analysis.Mark.ofTokens_leaf hread he hblock, List.flatMap_append,
      flatMap_counterpart_ofArguments, List.flatMap_cons, ← ih depth h.of_append.of_cons]
    rfl
  | block ts call rest brace inner hread he hblock ih =>
    rw [ofTokens_block hread he hblock] at h ⊢
    split at h
    · exact absurd rfl (h _ (List.mem_append_right _ List.mem_cons_self))
    · next hfits =>
      rw [if_neg hfits, Analysis.Mark.ofTokens_block hread he hblock, List.flatMap_append,
        flatMap_counterpart_ofArguments, List.flatMap_cons,
        ← ih inner (Nat.le_refl _) (depth + 1) h.of_append.of_cons]
      rfl
  | opening brace rest ih =>
    rw [ofTokens_opening] at h ⊢
    rw [Analysis.Mark.ofTokens_opening, ← ih depth h]
    rfl
  | closing brace rest ih =>
    rw [ofTokens_closing] at h ⊢
    rw [Analysis.Mark.ofTokens_closing, List.flatMap_cons, ← ih (depth - 1) h.of_cons]
    rfl
  | other t rest hread hopening hclosing ih =>
    rw [ofTokens_other hread hclosing] at h ⊢
    rw [Analysis.Mark.ofTokens_other hread hopening hclosing]
    exact ih depth h

end Document.Mark

end PagePreview
