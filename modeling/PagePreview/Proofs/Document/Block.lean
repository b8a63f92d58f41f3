/-
PagePreview.Proofs.Document.Block — where a block ends when it is read, and
where it ends when it is passed over.

A block that nests too deep is passed over, and to find its end its braces
are counted. Any other block is read call by call. The reading takes no
notice of the braces in an argument list, nor of an opening brace that
follows no element, but the count includes them all. So the two find the same
end exactly if the braces of the block as it is read pair up, wherever they
stand, or at least none of them is closed too many and nothing is behind the
block.

* `Document.skipBlock_eq_iff` — when a count of braces ends at a brace.
* `Document.readBlock?` — what follows a block that is read.
* `Document.exists_body_of_readBlock?` — a block without any brace that the
  reading takes no notice of.
* `Document.ReadsOn` — one more node, and the reading goes on behind it.
* `Document.block_ends` — both ends of a block, and what is read behind them.
-/
import PagePreview.Proofs.Document.Invariant

namespace PagePreview

/-! ## Calls in front of other tokens -/

namespace CallSite

/-- A call is seen by its first two tokens. -/
theorem read?_cons_cons_ne_none (name : String) (nameSpan paren : Span) (inside : List Token) :
    read? (⟨.ident name, nameSpan⟩ :: ⟨.punct '(', paren⟩ :: inside) ≠ none := by
  cases hclose : inside.dropWhile (!·.isPunct ')') <;> simp [read?, hclose]

theorem read?_eq_none_of_append {ts us : List Token} (h : read? (ts ++ us) = none) :
    read? ts = none := by
  cases hread : read? ts with
  | none => rfl
  | some read =>
    obtain ⟨call, rest⟩ := read
    obtain ⟨paren, after, rfl, -, -, -⟩ := exists_written hread
    exact absurd h (read?_cons_cons_ne_none _ _ _ _)

/-- What follows a call may be cut off. -/
theorem read?_of_append {ts body us : List Token} {t : Token} {call : CallSite}
    (h : read? ts = some (call, body ++ t :: us)) :
    ∃ front, ts = front ++ t :: us ∧ read? front = some (call, body) := by
  obtain ⟨paren, after, rfl, hafter, hend, hopen⟩ := exists_written h
  have hclosed : call.closing ≠ none := fun hnone => by simp [hend hnone, dropSemicolon] at hafter
  have hread (inside : List Token) :
      read? (call.written paren ++ inside) = some (call, dropSemicolon inside) :=
    read?_written paren hopen fun hnone => absurd hnone hclosed
  cases after with
  | nil => simp [dropSemicolon] at hafter
  | cons u after =>
    rw [dropSemicolon] at hafter
    split at hafter
    · next hu =>
      refine ⟨call.written paren ++ u :: body, by simp [← hafter], ?_⟩
      rw [hread, dropSemicolon, if_pos hu]
    · next hu =>
      refine ⟨call.written paren ++ body, by simp [← hafter], ?_⟩
      rw [hread]
      cases body with
      | nil => rfl
      | cons v body =>
        obtain ⟨rfl, -⟩ := List.cons.inj hafter
        rw [dropSemicolon, if_neg hu]

end CallSite

theorem openBlock?_eq_none_of_append {ts us : List Token} (h : openBlock? (ts ++ us) = none) :
    openBlock? ts = none := by
  cases ts with
  | nil => rfl
  | cons t ts => simpa [openBlock?] using h

/-! ## The braces among tokens -/

/-- The brace that the token is, wherever it stands. -/
def Token.brace? (t : Token) : Option Analysis.Mark :=
  if t.isPunct '{' then some (.opening none)
  else if t.isPunct '}' then some .closing
  else none

/-- All braces among tokens. -/
def braces (ts : List Token) : List Analysis.Mark :=
  ts.filterMap Token.brace?

/-- The arguments of the call hold no braces, and an opening brace follows an
element. -/
def Analysis.Mark.Tidy : Analysis.Mark → Prop
  | property _ call | element call => braces call.arguments = []
  | opening owner => owner ≠ none
  | closing => True

/-- With some braces open in front, no brace is closed too many. -/
def Analysis.Mark.Covered (depth : Int) (marks : List Analysis.Mark) : Prop :=
  ∀ front, front <+: marks → 0 ≤ depth + totalBalance front

namespace Analysis.Mark

theorem covered_nil {depth : Int} : Covered depth [] ↔ 0 ≤ depth := by
  simp [Covered]

theorem covered_cons {depth : Int} {m : Mark} {marks : List Mark} :
    Covered depth (m :: marks) ↔ 0 ≤ depth ∧ Covered (depth + m.balance) marks := by
  constructor
  · intro h
    refine ⟨by simpa using h [] List.nil_prefix, fun front hfront => ?_⟩
    have hlonger := h (m :: front) (List.cons_prefix_cons.mpr ⟨rfl, hfront⟩)
    rwa [totalBalance_cons, ← Int.add_assoc] at hlonger
  · rintro ⟨hdepth, h⟩ front hfront
    cases front with
    | nil => simpa using hdepth
    | cons n front =>
      obtain ⟨rfl, htail⟩ := List.cons_prefix_cons.mp hfront
      rw [totalBalance_cons, ← Int.add_assoc]
      exact h front htail

theorem covered_opening {depth : Nat} {owner : Option NodeKind} {marks : List Mark} :
    Covered depth (.opening owner :: marks) ↔ Covered (depth + 1 : Nat) marks := by
  rw [covered_cons]
  exact and_iff_right (Int.natCast_nonneg depth)

theorem not_covered_closing {marks : List Mark} : ¬Covered (0 : Nat) (.closing :: marks) := by
  intro h
  have hbelow := (covered_cons.mp h).2 [] List.nil_prefix
  simp [balance] at hbelow

theorem covered_closing {depth : Nat} {marks : List Mark} :
    Covered (depth + 1 : Nat) (.closing :: marks) ↔ Covered depth marks := by
  have hless : ((depth + 1 : Nat) : Int) + balance .closing = depth := by
    simp only [balance]
    omega
  rw [covered_cons, hless]
  exact and_iff_right (Int.natCast_nonneg (depth + 1))

theorem balanced_iff {marks : List Mark} :
    Balanced marks ↔ Covered 0 marks ∧ totalBalance marks = 0 := by
  simp only [Covered, Int.zero_add]
  exact ⟨fun h => ⟨h.nonneg, h.settled⟩, fun h => ⟨h.1, h.2⟩⟩

end Analysis.Mark

theorem braces_opening (brace : Span) (ts : List Token) :
    braces (⟨.punct '{', brace⟩ :: ts) = .opening none :: braces ts := rfl

theorem braces_closing (brace : Span) (ts : List Token) :
    braces (⟨.punct '}', brace⟩ :: ts) = .closing :: braces ts := rfl

theorem braces_other {t : Token} (hopening : t.isPunct '{' = false)
    (hclosing : t.isPunct '}' = false) (ts : List Token) : braces (t :: ts) = braces ts := by
  have hbrace : t.brace? = none := by simp [Token.brace?, hopening, hclosing]
  exact List.filterMap_cons_none hbrace

theorem not_brace_of_braces_eq_nil {ts : List Token} (h : braces ts = []) {t : Token}
    (ht : t ∈ ts) : t.isPunct '{' = false ∧ t.isPunct '}' = false := by
  have hbrace : t.brace? = none := List.filterMap_eq_nil_iff.mp h t ht
  unfold Token.brace? at hbrace
  split_ifs at hbrace with hopening hclosing
  exact ⟨by simpa using hopening, by simpa using hclosing⟩

namespace Document

open Analysis.Mark (Balanced Covered balance balanced_iff covered_closing covered_nil
  covered_opening not_covered_closing totalBalance totalBalance_cons totalBalance_nil)

/-! ## Blocks that are passed over -/

theorem skipBlock_other {t : Token} (hopening : t.isPunct '{' = false)
    (hclosing : t.isPunct '}' = false) (depth : Nat) (ts : List Token) :
    skipBlock depth (t :: ts) = skipBlock depth ts := by
  simp [skipBlock, hopening, hclosing]

/-- To pass over a block takes tokens as long as there are any. -/
theorem skipBlock_eq_self_iff {depth : Nat} {ts : List Token} :
    skipBlock depth ts = ts ↔ ts = [] := by
  constructor
  · intro h
    cases ts with
    | nil => rfl
    | cons t rest =>
      have hopening := length_skipBlock_le (depth + 1) rest
      have hclosing := length_skipBlock_le (depth - 1) rest
      have hother := length_skipBlock_le depth rest
      have hlength := congrArg List.length h
      simp only [skipBlock, List.length_cons] at hlength
      split_ifs at hlength <;> omega
  · rintro rfl
    rfl

/-- The count of braces ends at a closing brace exactly if no brace in front
of it is closed too many and the brace is the one that is missing, or nothing
is behind it. -/
theorem skipBlock_eq_iff (brace : Span) (body rest : List Token) (depth : Nat) :
    skipBlock (depth + 1) (body ++ ⟨.punct '}', brace⟩ :: rest) = rest ↔
      Covered depth (braces body) ∧ (depth + totalBalance (braces body) = 0 ∨ rest = []) := by
  induction body generalizing depth with
  | nil =>
    have hcovered : Covered depth (braces []) := covered_nil.mpr (Int.natCast_nonneg depth)
    cases depth with
    | zero =>
      rw [List.nil_append, skipBlock_last]
      exact iff_of_true rfl ⟨hcovered, .inl rfl⟩
    | succ depth =>
      -- The count goes on behind the brace, so it only ends there if the tokens do.
      have hopen : ((depth + 1 : Nat) : Int) + totalBalance (braces []) ≠ 0 := by
        simp only [braces, List.filterMap_nil, totalBalance_nil]
        omega
      rw [List.nil_append, skipBlock_closing (by omega), skipBlock_eq_self_iff]
      exact ⟨fun h => ⟨hcovered, .inr h⟩, fun h => h.2.resolve_left hopen⟩
  | cons t body ih =>
    cases hopening : t.isPunct '{' with
    | true =>
      have htotal : (depth : Int) + totalBalance (.opening none :: braces body) =
          (depth + 1 : Nat) + totalBalance (braces body) := by
        simp only [totalBalance_cons, balance]
        omega
      rw [Token.eq_punct_of_isPunct hopening, List.cons_append, skipBlock_opening, ih (depth + 1),
        braces_opening, covered_opening, htotal]
    | false =>
      cases hclosing : t.isPunct '}' with
      | true =>
        rw [Token.eq_punct_of_isPunct hclosing, List.cons_append, braces_closing]
        cases depth with
        | zero =>
          -- The count ends here already, with the brace itself still ahead.
          have hahead : body ++ ⟨.punct '}', brace⟩ :: rest ≠ rest := by
            intro heq
            have hlength := congrArg List.length heq
            rw [List.length_append, List.length_cons] at hlength
            omega
          rw [skipBlock_last]
          exact iff_of_false hahead fun h => not_covered_closing h.1
        | succ depth =>
          have htotal : ((depth + 1 : Nat) : Int) + totalBalance (.closing :: braces body) =
              depth + totalBalance (braces body) := by
            simp only [totalBalance_cons, balance]
            omega
          rw [skipBlock_closing (by omega), ih depth, covered_closing, htotal]
      | false =>
        rw [List.cons_append, skipBlock_other hopening hclosing, ih depth,
          braces_other hopening hclosing]

/-- A call without braces is passed over. -/
theorem skipBlock_of_read? {ts rest : List Token} {call : CallSite}
    (hread : CallSite.read? ts = some (call, rest)) (htidy : braces call.arguments = [])
    (depth : Nat) : skipBlock depth ts = skipBlock depth rest := by
  obtain ⟨paren, after, rfl, rfl, -, -⟩ := CallSite.exists_written hread
  have hwritten : ∀ t ∈ call.written paren, t.isPunct '{' = false ∧ t.isPunct '}' = false := by
    intro t ht
    simp only [CallSite.written, List.mem_cons, List.mem_append, Option.mem_toList] at ht
    rcases ht with rfl | rfl | ht | ht
    · exact ⟨rfl, rfl⟩
    · exact ⟨rfl, rfl⟩
    · exact not_brace_of_braces_eq_nil htidy ht
    · obtain ⟨close, -, rfl⟩ := Option.map_eq_some_iff.mp ht
      exact ⟨rfl, rfl⟩
  rw [skipBlock_append depth _ after hwritten]
  cases after with
  | nil => rfl
  | cons t after =>
    rw [CallSite.dropSemicolon]
    split
    · next ht =>
      rw [Token.eq_punct_of_isPunct ht]
      exact skipBlock_other rfl rfl depth after
    · rfl

/-! ## Blocks that are read -/

/-- What follows the block that the tokens start in when it is read, `outer`
blocks being open around it, and `depth` from it on. Nothing is said of a
block that is never closed or holds one that nests too deep. -/
def readBlock? (outer depth : Nat) (ts : List Token) : Option (List Token) :=
  match _h : CallSite.read? ts with
  | some (call, rest) =>
    match Call.resolve call.name with
    | .property _ => readBlock? outer depth rest
    | _ =>
      match _hb : openBlock? rest with
      | some (_, inner) =>
        if depthLimit ≤ outer + depth then none else readBlock? outer (depth + 1) inner
      | none => readBlock? outer depth rest
  | none =>
    match ts with
    | [] => none
    | t :: rest =>
      if t.isPunct '}' then
        if depth ≤ 1 then some rest else readBlock? outer (depth - 1) rest
      else readBlock? outer depth rest
termination_by ts.length
decreasing_by
  · exact CallSite.length_read?_lt _h
  · exact Nat.lt_trans (length_openBlock?_lt _hb) (CallSite.length_read?_lt _h)
  · exact CallSite.length_read?_lt _h
  · simp
  · simp

section Steps

variable {outer depth : Nat} {ts rest inner : List Token} {call : CallSite} {brace : Span}

theorem readBlock?_nil : readBlock? outer depth [] = none := by
  rw [readBlock?]
  split
  · next h => simp [CallSite.read?_nil] at h
  · rfl

theorem readBlock?_property {p : Property} (hread : CallSite.read? ts = some (call, rest))
    (hp : Call.resolve call.name = .property p) :
    readBlock? outer depth ts = readBlock? outer depth rest := by
  rw [readBlock?]
  split
  · next h =>
    obtain ⟨rfl, rfl⟩ : _ ∧ _ := by simpa [hread] using h
    simp only [hp]
  · next h => simp [hread] at h

theorem readBlock?_leaf (hread : CallSite.read? ts = some (call, rest)) (he : call.IsElement)
    (hblock : openBlock? rest = none) :
    readBlock? outer depth ts = readBlock? outer depth rest := by
  rw [readBlock?]
  split
  · next h =>
    obtain ⟨rfl, rfl⟩ : _ ∧ _ := by simpa [hread] using h
    split
    · next p hp => exact absurd hp (he p)
    · split
      · next hb => simp [hblock] at hb
      · rfl
  · next h => simp [hread] at h

theorem readBlock?_block (hread : CallSite.read? ts = some (call, rest)) (he : call.IsElement)
    (hblock : openBlock? rest = some (brace, inner)) :
    readBlock? outer depth ts =
      if depthLimit ≤ outer + depth then none else readBlock? outer (depth + 1) inner := by
  rw [readBlock?]
  split
  · next h =>
    obtain ⟨rfl, rfl⟩ : _ ∧ _ := by simpa [hread] using h
    split
    · next p hp => exact absurd hp (he p)
    · split
      · next hb =>
        obtain ⟨rfl, rfl⟩ : _ ∧ _ := by simpa [hblock] using hb
        rfl
      · next hb => simp [hblock] at hb
  · next h => simp [hread] at h

theorem readBlock?_closing :
    readBlock? outer depth (⟨.punct '}', brace⟩ :: rest) =
      if depth ≤ 1 then some rest else readBlock? outer (depth - 1) rest := by
  rw [readBlock?]
  split
  · next h => simp [CallSite.read?_punct] at h
  · simp [Token.isPunct]

theorem readBlock?_other {t : Token} (hread : CallSite.read? (t :: rest) = none)
    (hclosing : t.isPunct '}' = false) :
    readBlock? outer depth (t :: rest) = readBlock? outer depth rest := by
  rw [readBlock?]
  split
  · next h => simp [hread] at h
  · simp [hclosing]

end Steps

/-- A block that is read ends at a closing brace. If the reading takes notice
of all braces in front of that one, the count of braces ends there too. -/
theorem exists_body_of_readBlock? {outer depth : Nat} {ts rest : List Token}
    (h : readBlock? outer depth ts = some rest) :
    ∃ body close, ts = body ++ ⟨.punct '}', close⟩ :: rest ∧
      ((∀ m ∈ Analysis.Mark.ofTokens body, m.Tidy) → skipBlock depth ts = rest) := by
  induction ts using walk_induction generalizing depth with
  | nil =>
    rw [readBlock?_nil] at h
    exact nomatch h
  | property ts p call after hread hp ih =>
    rw [readBlock?_property hread hp] at h
    obtain ⟨body, close, rfl, hskip⟩ := ih h
    obtain ⟨front, rfl, hfront⟩ := CallSite.read?_of_append hread
    refine ⟨front, close, rfl, fun htidy => ?_⟩
    rw [Analysis.Mark.ofTokens_property hfront hp, List.forall_mem_cons] at htidy
    rw [skipBlock_of_read? hread htidy.1]
    exact hskip htidy.2
  | leaf ts call after hread he hblock ih =>
    rw [readBlock?_leaf hread he hblock] at h
    obtain ⟨body, close, rfl, hskip⟩ := ih h
    obtain ⟨front, rfl, hfront⟩ := CallSite.read?_of_append hread
    refine ⟨front, close, rfl, fun htidy => ?_⟩
    rw [Analysis.Mark.ofTokens_leaf hfront he (openBlock?_eq_none_of_append hblock),
      List.forall_mem_cons] at htidy
    rw [skipBlock_of_read? hread htidy.1]
    exact hskip htidy.2
  | block ts call after brace inner hread he hblock ih =>
    rw [readBlock?_block hread he hblock] at h
    split at h
    · exact nomatch h
    · obtain ⟨body, close, rfl, hskip⟩ := ih inner (Nat.le_refl _) h
      obtain rfl := openBlock?_eq_some_iff.mp hblock
      -- What is cut off starts at the brace that ends the outer block, behind the inner one.
      have hcut : CallSite.read? ts =
          some (call, (⟨.punct '{', brace⟩ :: body) ++ ⟨.punct '}', close⟩ :: rest) := hread
      obtain ⟨front, rfl, hfront⟩ := CallSite.read?_of_append hcut
      refine ⟨front, close, rfl, fun htidy => ?_⟩
      rw [Analysis.Mark.ofTokens_block hfront he rfl, List.forall_mem_cons,
        List.forall_mem_cons] at htidy
      rw [skipBlock_of_read? hread htidy.1, skipBlock_opening]
      exact hskip htidy.2.2
  | opening brace after ih =>
    rw [readBlock?_other (CallSite.read?_punct _ _ _) rfl] at h
    obtain ⟨body, close, rfl, -⟩ := ih h
    refine ⟨⟨.punct '{', brace⟩ :: body, close, rfl, fun htidy => ?_⟩
    -- The brace is counted but not read: the one thing that is not tidy here.
    rw [Analysis.Mark.ofTokens_opening, List.forall_mem_cons] at htidy
    exact absurd rfl htidy.1
  | closing brace after ih =>
    rw [readBlock?_closing] at h
    split at h
    · next hlast =>
      obtain rfl := Option.some.inj h
      refine ⟨[], brace, rfl, fun _ => ?_⟩
      simp [skipBlock, Token.isPunct, hlast]
    · next hinner =>
      obtain ⟨body, close, rfl, hskip⟩ := ih h
      refine ⟨⟨.punct '}', brace⟩ :: body, close, rfl, fun htidy => ?_⟩
      rw [Analysis.Mark.ofTokens_closing, List.forall_mem_cons] at htidy
      have hstep : skipBlock depth (⟨.punct '}', brace⟩ :: (body ++ ⟨.punct '}', close⟩ :: rest)) =
          skipBlock (depth - 1) (body ++ ⟨.punct '}', close⟩ :: rest) := by
        simp [skipBlock, Token.isPunct, hinner]
      exact hstep.trans (hskip htidy.2)
  | other t after hread hopening hclosing ih =>
    rw [readBlock?_other hread hclosing] at h
    obtain ⟨body, close, rfl, hskip⟩ := ih h
    refine ⟨t :: body, close, rfl, fun htidy => ?_⟩
    have hfront : CallSite.read? (t :: body) = none := CallSite.read?_eq_none_of_append hread
    rw [Analysis.Mark.ofTokens_other hfront hopening hclosing] at htidy
    rw [skipBlock_other hopening hclosing]
    exact hskip htidy

/-- The marks close the innermost `depth` open nodes with everything that they
open themselves, and make one more child of the node around these. -/
def Closes (depth : Nat) (marks : List Mark) : Prop :=
  ∀ inner upper parent below, upper.length + 1 = depth →
    ∃ n, marks.foldl OpenNodes.apply ⟨inner, upper ++ parent :: below⟩ = ⟨parent.append n, below⟩

/-- The reading of a block in the reading of the document. -/
theorem exists_closes_of_readBlock? (sourceEnd : Nat) {outer depth : Nat} {ts rest : List Token}
    (hdepth : 1 ≤ depth) (h : readBlock? outer depth ts = some rest) :
    ∃ marks, Mark.ofTokens sourceEnd (outer + depth) ts =
        marks ++ Mark.ofTokens sourceEnd outer rest ∧ Closes depth marks := by
  induction ts using walk_induction generalizing depth with
  | nil =>
    rw [readBlock?_nil] at h
    exact nomatch h
  | property ts p call after hread hp ih =>
    rw [readBlock?_property hread hp] at h
    obtain ⟨marks, hmarks, hcloses⟩ := ih hdepth h
    refine ⟨Mark.ofArguments sourceEnd call ++ .property p call :: marks, ?_, ?_⟩
    · rw [Mark.ofTokens_property hread hp, hmarks, List.append_assoc, List.cons_append]
    · intro inner upper parent below hupper
      rw [List.foldl_append, OpenNodes.foldl_apply_ofArguments, List.foldl_cons, OpenNodes.apply]
      cases call.label? with
      | none => exact hcloses inner upper parent below hupper
      | some value => exact hcloses _ upper parent below hupper
  | leaf ts call after hread he hblock ih =>
    rw [readBlock?_leaf hread he hblock] at h
    obtain ⟨marks, hmarks, hcloses⟩ := ih hdepth h
    refine ⟨Mark.ofArguments sourceEnd call ++
      .leaf (Call.resolve call.name).nodeKind call :: marks, ?_, ?_⟩
    · rw [Mark.ofTokens_leaf hread he hblock, hmarks, List.append_assoc, List.cons_append]
    · intro inner upper parent below hupper
      rw [List.foldl_append, OpenNodes.foldl_apply_ofArguments, List.foldl_cons]
      exact hcloses _ upper parent below hupper
  | block ts call after brace inside hread he hblock ih =>
    rw [readBlock?_block hread he hblock] at h
    split at h
    · exact nomatch h
    · next hfits =>
      obtain ⟨marks, hmarks, hcloses⟩ := ih inside (Nat.le_refl _) (Nat.le_add_left 1 depth) h
      refine ⟨Mark.ofArguments sourceEnd call ++
        .opening (Call.resolve call.name).nodeKind call :: marks, ?_, ?_⟩
      · rw [Mark.ofTokens_block hread he hblock, if_neg hfits, Nat.add_assoc, hmarks,
          List.append_assoc, List.cons_append]
      · intro inner upper parent below hupper
        rw [List.foldl_append, OpenNodes.foldl_apply_ofArguments, List.foldl_cons]
        exact hcloses _ (inner :: upper) parent below (congrArg (· + 1) hupper)
  | opening brace after ih =>
    rw [readBlock?_other (CallSite.read?_punct _ _ _) rfl] at h
    rw [Mark.ofTokens_opening]
    exact ih hdepth h
  | closing brace after ih =>
    rw [readBlock?_closing] at h
    rw [Mark.ofTokens_closing]
    split at h
    · next hlast =>
      obtain rfl := Option.some.inj h
      obtain rfl : depth = 1 := by omega
      refine ⟨[.closing], rfl, ?_⟩
      intro inner upper parent below hupper
      obtain rfl : upper = [] := List.eq_nil_of_length_eq_zero (by omega)
      exact ⟨inner, rfl⟩
    · next hinner =>
      obtain ⟨marks, hmarks, hcloses⟩ := ih (by omega) h
      have hless : outer + depth - 1 = outer + (depth - 1) := by omega
      refine ⟨.closing :: marks, by rw [hless, hmarks, List.cons_append], ?_⟩
      intro inner upper parent below hupper
      cases upper with
      | nil =>
        simp at hupper
        omega
      | cons u upper =>
        rw [List.length_cons] at hupper
        exact hcloses _ upper parent below (by omega)
  | other t after hread hopening hclosing ih =>
    rw [readBlock?_other hread hclosing] at h
    rw [Mark.ofTokens_other hread hclosing]
    exact ih hdepth h

/-- The tokens start with an element, and `inner` is behind the brace that
opens its block. -/
def StartsBlock (ts inner : List Token) : Prop :=
  ∃ call after brace, CallSite.read? ts = some (call, after) ∧ call.IsElement ∧
    openBlock? after = some (brace, inner)

/-- Inside of `depth` open blocks, the reading adds one node to the innermost
open one and goes on with other tokens, inside of the same blocks. -/
def ReadsOn (sourceEnd depth : Nat) (ts rest : List Token) : Prop :=
  ∃ marks, Mark.ofTokens sourceEnd depth ts = marks ++ Mark.ofTokens sourceEnd depth rest ∧
    ∀ o : OpenNodes, ∃ n, marks.foldl OpenNodes.apply o = o.add n

/-- Behind a block that is read. -/
theorem readsOn_of_readBlock? (sourceEnd : Nat) {outer : Nat} {ts inner rest : List Token}
    (hstarts : StartsBlock ts inner) (houter : outer < depthLimit)
    (h : readBlock? outer 1 inner = some rest) : ReadsOn sourceEnd outer ts rest := by
  obtain ⟨call, after, brace, hread, he, hblock⟩ := hstarts
  obtain ⟨marks, hmarks, hcloses⟩ := exists_closes_of_readBlock? sourceEnd (Nat.le_refl 1) h
  refine ⟨Mark.ofArguments sourceEnd call ++
    .opening (Call.resolve call.name).nodeKind call :: marks, ?_, fun o => ?_⟩
  · rw [Mark.ofTokens_block hread he hblock, if_neg (by omega), hmarks, List.append_assoc,
      List.cons_append]
  · rw [List.foldl_append, OpenNodes.foldl_apply_ofArguments, List.foldl_cons]
    exact hcloses _ [] o.innermost o.outer rfl

/-- Behind a block that is passed over. -/
theorem readsOn_skipBlock (sourceEnd : Nat) {depth : Nat} {ts inner : List Token}
    (hstarts : StartsBlock ts inner) (hdepth : depthLimit ≤ depth) :
    ReadsOn sourceEnd depth ts (skipBlock 1 inner) := by
  obtain ⟨call, after, brace, hread, he, hblock⟩ := hstarts
  refine ⟨Mark.ofArguments sourceEnd call ++ [.problem ⟨.nestingTooDeep, brace.start⟩,
    .leaf (Call.resolve call.name).nodeKind call], ?_, fun o => ?_⟩
  · rw [Mark.ofTokens_block hread he hblock, if_pos hdepth, List.append_assoc]
    rfl
  · rw [List.foldl_append, OpenNodes.foldl_apply_ofArguments]
    exact ⟨_, rfl⟩

/-- A block that is read with at most `depthLimit` blocks open ends at a
closing brace. When it is passed over, it ends at the same one exactly if the
braces in front of that one pair up, or nothing is behind the block and none
of them is closed too many. It does so whenever the reading takes notice of
all these braces. Either way the block is one node of the innermost open one,
and what is behind its end is read next. -/
theorem block_ends {outer : Nat} {inner rest : List Token}
    (h : readBlock? outer 1 inner = some rest) :
    (∃ body close, inner = body ++ ⟨.punct '}', close⟩ :: rest ∧
      (skipBlock 1 inner = rest ↔
        Balanced (braces body) ∨ Covered 0 (braces body) ∧ rest = []) ∧
      ((∀ m ∈ Analysis.Mark.ofTokens body, m.Tidy) → skipBlock 1 inner = rest)) ∧
    ∀ (sourceEnd : Nat) (ts : List Token), StartsBlock ts inner →
      (outer < depthLimit → ReadsOn sourceEnd outer ts rest) ∧
        ∀ depth, depthLimit ≤ depth → ReadsOn sourceEnd depth ts (skipBlock 1 inner) := by
  refine ⟨?_, fun sourceEnd ts hstarts =>
    ⟨fun houter => readsOn_of_readBlock? sourceEnd hstarts houter h,
      fun depth hdepth => readsOn_skipBlock sourceEnd hstarts hdepth⟩⟩
  obtain ⟨body, close, rfl, hskip⟩ := exists_body_of_readBlock? h
  refine ⟨body, close, rfl, ?_, hskip⟩
  have hends := skipBlock_eq_iff close body rest 0
  rw [Int.natCast_zero, Int.zero_add] at hends
  rw [hends, balanced_iff, and_or_left]

/-- A block in a block, with a brace in a string. -/
def nested : List Token :=
  tokens "wce_card() \x7b wce_row() \x7b wce_text(\"\x7d\"); \x7d \x7d wce_text(\"after\");"

theorem block_ends_nested :
    readBlock? 0 1 (nested.drop 4) = some (nested.drop 15) ∧
      skipBlock 1 (nested.drop 4) = nested.drop 15 ∧
      StartsBlock nested (nested.drop 4) ∧
      ReadsOn 62 0 nested (nested.drop 15) ∧ ReadsOn 62 depthLimit nested (nested.drop 15) := by
  have hread : readBlock? 0 1 (nested.drop 4) = some (nested.drop 15) := by decide +kernel
  have hstarts : StartsBlock nested (nested.drop 4) :=
    ⟨⟨"wce_card", ⟨0, 8⟩, [], some ⟨9, 10⟩⟩, nested.drop 3, ⟨11, 12⟩, by decide +kernel,
      fun p => by cases p <;> decide, by decide +kernel⟩
  obtain ⟨⟨body, close, hbody, hends, -⟩, hreads⟩ := block_ends hread
  obtain ⟨hopened, hskipped⟩ := hreads 62 nested hstarts
  have hlength : body.length = 10 := by
    have htotal := congrArg List.length hbody
    have hlonger : (nested.drop 4).length = (nested.drop 15).length + 11 := by decide +kernel
    rw [List.length_append, List.length_cons] at htotal
    omega
  have htake : body = (nested.drop 4).take 10 := by rw [hbody, ← hlength, List.take_left]
  have hskip : skipBlock 1 (nested.drop 4) = nested.drop 15 := by
    refine hends.mpr (.inl ?_)
    rw [htake]
    decide +kernel
  refine ⟨hread, hskip, hstarts, hopened (by decide), ?_⟩
  rw [← hskip]
  exact hskipped depthLimit (Nat.le_refl _)

/-- A brace that is an argument of a call. -/
def unquoted : List Token :=
  tokens "wce_row()\x7bwce_text(\x7d)\x7dwce_text(\"after\");"

/-- The reading passes it over, but it ends the block when the block is passed
over. -/
theorem block_ends_unquoted :
    readBlock? 0 1 (unquoted.drop 4) = some (unquoted.drop 9) ∧
      skipBlock 1 (unquoted.drop 4) = unquoted.drop 7 ∧
      unquoted.drop 7 ≠ unquoted.drop 9 := by
  decide +kernel

end Document

end PagePreview
