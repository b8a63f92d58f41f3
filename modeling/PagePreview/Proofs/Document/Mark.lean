/-
PagePreview.Proofs.Document.Mark — the reading of a document, step by step.

* `ofTokens_nil` … `ofTokens_other` — the marks of a token list, one
  equation for each step of `walk_induction`. Every other proof about the
  reading goes through them.
* `skipBlock_append` — tokens without braces are passed over inside of a
  block that nests too deep.
* `countP_isUnclosed_ofTokens` — every block that is open at the end is
  reported, and none besides.
-/
import PagePreview.Document.Mark
import PagePreview.Proofs.Source.Walk

namespace PagePreview

namespace Document

/-! ## Blocks that are passed over -/

/-- Tokens without braces are passed over. -/
theorem skipBlock_append (depth : Nat) : ∀ (ts rest : List Token),
    (∀ t ∈ ts, t.isPunct '{' = false ∧ t.isPunct '}' = false) →
    skipBlock depth (ts ++ rest) = skipBlock depth rest
  | [], rest, _ => rfl
  | t :: ts, rest, h => by
      obtain ⟨ho, hc⟩ := h t (by simp)
      rw [List.cons_append, skipBlock, ho, hc]
      simp only [Bool.false_eq_true, if_false]
      exact skipBlock_append depth ts rest fun u hu => h u (by simp [hu])

theorem skipBlock_opening (depth : Nat) (brace : Span) (rest : List Token) :
    skipBlock depth (⟨.punct '{', brace⟩ :: rest) = skipBlock (depth + 1) rest := rfl

/-- A closing brace that is not the last one. -/
theorem skipBlock_closing {depth : Nat} (h : 1 ≤ depth) (brace : Span) (rest : List Token) :
    skipBlock (depth + 1) (⟨.punct '}', brace⟩ :: rest) = skipBlock depth rest := by
  have hdeep : ¬ depth + 1 ≤ 1 := by omega
  simp [skipBlock, Token.isPunct, hdeep]

/-- The closing brace of the block itself. -/
theorem skipBlock_last (brace : Span) (rest : List Token) :
    skipBlock 1 (⟨.punct '}', brace⟩ :: rest) = rest := rfl

namespace Mark

/-! ## The steps of the reading -/

section Steps

variable {sourceEnd depth : Nat} {ts rest inner : List Token} {call : CallSite} {brace : Span}

theorem ofTokens_nil :
    ofTokens sourceEnd depth [] = List.replicate depth (problem ⟨.expectedBrace, sourceEnd⟩) := by
  rw [ofTokens]
  split
  · next h => simp [CallSite.read?_nil] at h
  · rfl

theorem ofTokens_property {p : Property} (hread : CallSite.read? ts = some (call, rest))
    (hp : Call.resolve call.name = .property p) :
    ofTokens sourceEnd depth ts =
      ofArguments sourceEnd call ++ property p call :: ofTokens sourceEnd depth rest := by
  rw [ofTokens]
  split
  · next h =>
    obtain ⟨rfl, rfl⟩ : _ ∧ _ := by simpa [hread] using h
    simp only [hp]
  · next h => simp [hread] at h

theorem ofTokens_leaf (hread : CallSite.read? ts = some (call, rest)) (he : call.IsElement)
    (hblock : openBlock? rest = none) :
    ofTokens sourceEnd depth ts =
      ofArguments sourceEnd call ++
        leaf (Call.resolve call.name).nodeKind call :: ofTokens sourceEnd depth rest := by
  rw [ofTokens]
  split
  · next h =>
    obtain ⟨rfl, rfl⟩ : _ ∧ _ := by simpa [hread] using h
    split
    · next p hp => exact absurd hp (he p)
    · split
      · next hb => simp [hblock] at hb
      · rfl
  · next h => simp [hread] at h

theorem ofTokens_block (hread : CallSite.read? ts = some (call, rest)) (he : call.IsElement)
    (hblock : openBlock? rest = some (brace, inner)) :
    ofTokens sourceEnd depth ts =
      ofArguments sourceEnd call ++
        if depthLimit ≤ depth then
          problem ⟨.nestingTooDeep, brace.start⟩ ::
            leaf (Call.resolve call.name).nodeKind call ::
              ofTokens sourceEnd depth (skipBlock 1 inner)
        else
          opening (Call.resolve call.name).nodeKind call ::
            ofTokens sourceEnd (depth + 1) inner := by
  rw [ofTokens]
  split
  · next h =>
    obtain ⟨rfl, rfl⟩ : _ ∧ _ := by simpa [hread] using h
    split
    · next p hp => exact absurd hp (he p)
    · split
      · next hb =>
        obtain ⟨rfl, rfl⟩ : _ ∧ _ := by simpa [hblock] using hb
        rfl
      · next hb => simp [hblock] at hb
  · next h => simp [hread] at h

theorem ofTokens_closing :
    ofTokens sourceEnd depth (⟨.punct '}', brace⟩ :: rest) =
      closing :: ofTokens sourceEnd (depth - 1) rest := by
  rw [ofTokens]
  split
  · next h => simp [CallSite.read?_punct] at h
  · simp [Token.isPunct]

/-- A token that starts no call and ends no block is passed over. -/
theorem ofTokens_other {t : Token} (hread : CallSite.read? (t :: rest) = none)
    (hclosing : t.isPunct '}' = false) :
    ofTokens sourceEnd depth (t :: rest) = ofTokens sourceEnd depth rest := by
  rw [ofTokens]
  split
  · next h => simp [hread] at h
  · simp [hclosing]

/-- In particular, an opening brace that does not follow a call opens
nothing. -/
theorem ofTokens_opening :
    ofTokens sourceEnd depth (⟨.punct '{', brace⟩ :: rest) = ofTokens sourceEnd depth rest :=
  ofTokens_other (CallSite.read?_punct _ _ _) rfl

end Steps

/-! ## Blocks that are open at the end -/

/-- How many blocks are open behind a mark. -/
def depthAfter (depth : Nat) : Mark → Nat
  | opening .. => depth + 1
  | closing => depth - 1
  | _ => depth

def isUnclosed : Mark → Bool
  | problem p => p.fault == .expectedBrace
  | _ => false

theorem foldl_depthAfter_replicate (depth : Nat) (p : Problem) (n : Nat) :
    (List.replicate n (problem p)).foldl depthAfter depth = depth := by
  induction n with
  | zero => rfl
  | succ n ih => exact ih

/-- The end of the arguments has nothing to do with blocks. -/
theorem foldl_depthAfter_ofArguments (sourceEnd depth : Nat) (call : CallSite) :
    (ofArguments sourceEnd call).foldl depthAfter depth = depth := by
  unfold ofArguments
  split <;> rfl

theorem countP_isUnclosed_ofArguments (sourceEnd : Nat) (call : CallSite) :
    (ofArguments sourceEnd call).countP isUnclosed = 0 := by
  unfold ofArguments
  split <;> rfl

/-- Each block that is still open at the end is reported, and no other. -/
theorem countP_isUnclosed_ofTokens (sourceEnd depth : Nat) (ts : List Token) :
    (ofTokens sourceEnd depth ts).countP isUnclosed =
      (ofTokens sourceEnd depth ts).foldl depthAfter depth := by
  induction ts using walk_induction generalizing depth with
  | nil =>
    rw [ofTokens_nil, foldl_depthAfter_replicate, List.countP_replicate]
    rfl
  | property ts p call rest hread hp ih =>
    rw [ofTokens_property hread hp, List.countP_append, List.foldl_append,
      countP_isUnclosed_ofArguments, foldl_depthAfter_ofArguments, Nat.zero_add]
    exact ih depth
  | leaf ts call rest hread he hblock ih =>
    rw [ofTokens_leaf hread he hblock, List.countP_append, List.foldl_append,
      countP_isUnclosed_ofArguments, foldl_depthAfter_ofArguments, Nat.zero_add]
    exact ih depth
  | block ts call rest brace inner hread he hblock ih =>
    rw [ofTokens_block hread he hblock, List.countP_append, List.foldl_append,
      countP_isUnclosed_ofArguments, foldl_depthAfter_ofArguments, Nat.zero_add]
    split
    · exact ih _ (length_skipBlock_le 1 inner) depth
    · exact ih _ (Nat.le_refl _) (depth + 1)
  | opening brace rest ih =>
    rw [ofTokens_opening]
    exact ih depth
  | closing brace rest ih =>
    rw [ofTokens_closing]
    exact ih (depth - 1)
  | other t rest hread hopening hclosing ih =>
    rw [ofTokens_other hread hclosing]
    exact ih depth

end Mark

end Document

end PagePreview
