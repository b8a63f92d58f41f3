/-
PagePreview.Proofs.Document.Problems — the problems of a document, in the
order in which they are noticed.

A block that nests too deep is noticed at its brace, while there are tokens
left. Arguments without an end take up all of them, so they are noticed at
the end of the source, once at most, and only the blocks that are open there
can be reported behind them. No more blocks are open at a time than the
limit allows.

* `Document.InOrder` — problems that come in this order.
* `Document.InOrder.pairwise_offset` — their offsets never decrease.
* `Document.Mark.inOrder_ofTokens` — the reading reports them so.
* `Document.problems_in_order` — the problems of a source, as they are
  reported.
-/
import PagePreview.Document
import PagePreview.Proofs.Document.Mark
import PagePreview.Proofs.Source.Tiling

namespace PagePreview

namespace Document

/-- First the opening braces of blocks that nest too deep, which are among the
tokens, then at most one argument list that is not closed, then blocks that
are not closed. -/
def InOrder (sourceEnd : Nat) (ts : List Token) (problems : List Problem) : Prop :=
  ∃ (deep : List Token) (parentheses braces : Nat),
    deep.Sublist ts ∧ (∀ t ∈ deep, t.isPunct '{' = true) ∧ parentheses ≤ 1 ∧ braces ≤ depthLimit ∧
      problems = deep.map (fun t => ⟨.nestingTooDeep, t.span.start⟩) ++
        (List.replicate parentheses ⟨.expectedParenthesis, sourceEnd⟩ ++
          List.replicate braces ⟨.expectedBrace, sourceEnd⟩)

namespace InOrder

variable {sourceEnd : Nat} {ts us : List Token} {problems : List Problem}

theorem mono (h : InOrder sourceEnd us problems) (hsub : us.Sublist ts) :
    InOrder sourceEnd ts problems := by
  obtain ⟨deep, parentheses, braces, hdeep, hrest⟩ := h
  exact ⟨deep, parentheses, braces, hdeep.trans hsub, hrest⟩

/-- A block that nests too deep is noticed before anything behind it. -/
theorem cons_deep (h : InOrder sourceEnd us problems) (brace : Span) :
    InOrder sourceEnd (⟨.punct '{', brace⟩ :: us) (⟨.nestingTooDeep, brace.start⟩ :: problems) := by
  obtain ⟨deep, parentheses, braces, hdeep, hbraces, hparentheses, hopen, rfl⟩ := h
  refine ⟨⟨.punct '{', brace⟩ :: deep, parentheses, braces, hdeep.cons_cons _, ?_, hparentheses,
    hopen, rfl⟩
  exact List.forall_mem_cons.mpr ⟨rfl, hbraces⟩

/-- What can be noticed at the end. -/
theorem atEnd (parentheses : Nat) {braces : Nat} (hparentheses : parentheses ≤ 1)
    (hopen : braces ≤ depthLimit) :
    InOrder sourceEnd ts (List.replicate parentheses ⟨.expectedParenthesis, sourceEnd⟩ ++
      List.replicate braces ⟨.expectedBrace, sourceEnd⟩) :=
  ⟨[], parentheses, braces, List.nil_sublist ts, nofun, hparentheses, hopen, rfl⟩

/-- A problem is noticed at a token or at the end. -/
theorem offset_cases (h : InOrder sourceEnd ts problems) {p : Problem} (hp : p ∈ problems) :
    (∃ t ∈ ts, p.offset = t.span.start) ∨ p.offset = sourceEnd := by
  obtain ⟨deep, parentheses, braces, hdeep, -, -, -, rfl⟩ := h
  rcases List.mem_append.mp hp with hp | hp
  · obtain ⟨t, ht, rfl⟩ := List.mem_map.mp hp
    exact .inl ⟨t, hdeep.subset ht, rfl⟩
  · rcases List.mem_append.mp hp with hp | hp
    · exact .inr (by rw [List.eq_of_mem_replicate hp])
    · exact .inr (by rw [List.eq_of_mem_replicate hp])

/-- The offsets never decrease if those of the tokens do not. -/
theorem pairwise_offset (h : InOrder sourceEnd ts problems)
    (hts : ts.Pairwise fun t u => t.span.start ≤ u.span.start)
    (hend : ∀ t ∈ ts, t.span.start ≤ sourceEnd) :
    (problems.map (·.offset)).Pairwise (· ≤ ·) := by
  obtain ⟨deep, parentheses, braces, hdeep, -, -, -, rfl⟩ := h
  simp only [List.map_append, List.map_map, List.map_replicate, Function.comp_def,
    List.replicate_append_replicate]
  refine List.pairwise_append.mpr ⟨List.pairwise_map.mpr (hts.sublist hdeep),
    List.pairwise_replicate.mpr (.inr (Nat.le_refl _)), ?_⟩
  intro offset hoffset last hlast
  obtain ⟨t, ht, rfl⟩ := List.mem_map.mp hoffset
  rw [List.eq_of_mem_replicate hlast]
  exact hend t (hdeep.subset ht)

end InOrder

namespace Mark

theorem filterMap_problem?_replicate (n : Nat) (p : Problem) :
    (List.replicate n (problem p)).filterMap problem? = List.replicate n p := by
  rw [List.filterMap_replicate]
  rfl

/-- A call reports nothing, or it is the last: its arguments go on to the
end. -/
theorem inOrder_call {sourceEnd depth : Nat} {ts rest : List Token} {call : CallSite}
    (hread : CallSite.read? ts = some (call, rest)) (hdepth : depth ≤ depthLimit)
    (hrest : InOrder sourceEnd rest ((ofTokens sourceEnd depth rest).filterMap problem?)) :
    InOrder sourceEnd ts ((ofArguments sourceEnd call).filterMap problem? ++
      (ofTokens sourceEnd depth rest).filterMap problem?) := by
  cases hclosing : call.closing with
  | some close =>
    rw [ofArguments, hclosing]
    exact hrest.mono (CallSite.read?_suffix hread).sublist
  | none =>
    obtain rfl := CallSite.rest_eq_nil hread hclosing
    rw [ofArguments, hclosing, ofTokens_nil, filterMap_problem?_replicate]
    exact InOrder.atEnd 1 (Nat.le_refl 1) hdepth

/-- Where a block follows, the arguments have an end. -/
theorem ofArguments_of_openBlock? {sourceEnd : Nat} {ts rest inner : List Token}
    {call : CallSite} {brace : Span} (hread : CallSite.read? ts = some (call, rest))
    (hblock : openBlock? rest = some (brace, inner)) : ofArguments sourceEnd call = [] := by
  cases hclosing : call.closing with
  | some close => rw [ofArguments, hclosing]; rfl
  | none =>
    obtain rfl := CallSite.rest_eq_nil hread hclosing
    exact nomatch hblock

theorem skipBlock_suffix (depth : Nat) (ts : List Token) : skipBlock depth ts <:+ ts := by
  fun_induction skipBlock depth ts with
  | case1 => exact List.suffix_rfl
  | case2 depth t rest hopen ih => exact ih.trans (List.suffix_cons t rest)
  | case3 depth t rest hopen hclose hlast => exact List.suffix_cons t rest
  | case4 depth t rest hopen hclose hinner ih => exact ih.trans (List.suffix_cons t rest)
  | case5 depth t rest hopen hclose ih => exact ih.trans (List.suffix_cons t rest)

/-- The reading reports its problems in order. -/
theorem inOrder_ofTokens (sourceEnd : Nat) {depth : Nat} (hdepth : depth ≤ depthLimit)
    (ts : List Token) :
    InOrder sourceEnd ts ((ofTokens sourceEnd depth ts).filterMap problem?) := by
  induction ts using walk_induction generalizing depth with
  | nil =>
    rw [ofTokens_nil, filterMap_problem?_replicate]
    exact InOrder.atEnd 0 (Nat.zero_le 1) hdepth
  | property ts p call rest hread hp ih =>
    rw [ofTokens_property hread hp, List.filterMap_append]
    exact inOrder_call hread hdepth (ih hdepth)
  | leaf ts call rest hread he hblock ih =>
    rw [ofTokens_leaf hread he hblock, List.filterMap_append]
    exact inOrder_call hread hdepth (ih hdepth)
  | block ts call rest brace inner hread he hblock ih =>
    have hsub : (⟨.punct '{', brace⟩ :: inner).Sublist ts := by
      rw [← openBlock?_eq_some_iff.mp hblock]
      exact (CallSite.read?_suffix hread).sublist
    rw [ofTokens_block hread he hblock, ofArguments_of_openBlock? hread hblock, List.nil_append]
    split_ifs with hdeep
    · have hskip := ih _ (length_skipBlock_le 1 inner) hdepth
      exact ((hskip.mono (skipBlock_suffix 1 inner).sublist).cons_deep brace).mono hsub
    · have hroom : depth + 1 ≤ depthLimit := by omega
      have hinner := ih inner (Nat.le_refl _) hroom
      exact hinner.mono ((List.sublist_cons_self _ inner).trans hsub)
  | opening brace rest ih =>
    rw [ofTokens_opening]
    exact (ih hdepth).mono (List.sublist_cons_self _ rest)
  | closing brace rest ih =>
    rw [ofTokens_closing]
    exact (ih ((Nat.sub_le depth 1).trans hdepth)).mono (List.sublist_cons_self _ rest)
  | other t rest hread hopening hclosing ih =>
    rw [ofTokens_other hread hclosing]
    exact (ih hdepth).mono (List.sublist_cons_self _ rest)

end Mark

/-- The words of a source start one behind the other. -/
theorem pairwise_start_tokens (source : String) :
    (tokens source).Pairwise fun t u => t.span.start < u.span.start := by
  refine (pairwise_tokens source).imp_of_mem fun {t u} ht _ hle => ?_
  exact Nat.lt_of_lt_of_le (within_of_mem_tokens ht).start_lt_stop hle

/-- The problems of every source come in order, each at the place where it is
noticed: blocks that nest too deep at their opening braces, one behind the
other, and then, at the end of the source, at most one argument list and at
most as many blocks as can be open. So the offsets never decrease, and the
source can be cut at each of them. -/
theorem problems_in_order (source : String) :
    (∃ (deep : List Token) (parentheses braces : Nat),
      deep.Sublist (tokens source) ∧ (∀ t ∈ deep, t.isPunct '{' = true) ∧
      (deep.map (·.span.start)).Pairwise (· < ·) ∧ parentheses ≤ 1 ∧ braces ≤ 256 ∧
      (parse source).problems.map (fun p => (p.fault.message, p.offset)) =
        deep.map (fun t => ("Nesting too deep", t.span.start)) ++
          (List.replicate parentheses ("Expected ')'", source.utf8ByteSize) ++
            List.replicate braces ("Expected '\x7d'", source.utf8ByteSize))) ∧
      ((parse source).problems.map (·.offset)).Pairwise (· ≤ ·) ∧
      ∀ p ∈ (parse source).problems,
        p.offset ≤ source.utf8ByteSize ∧ IsBoundary source p.offset := by
  have horder : InOrder source.utf8ByteSize (tokens source) (parse source).problems :=
    Mark.inOrder_ofTokens source.utf8ByteSize (Nat.zero_le depthLimit) (tokens source)
  have hstarts := pairwise_start_tokens source
  have hend : ∀ t ∈ tokens source, t.span.start ≤ source.utf8ByteSize := by
    intro t ht
    have hwithin := within_of_mem_tokens ht
    exact Nat.le_trans (Nat.le_of_lt hwithin.start_lt_stop) hwithin.stop_le
  refine ⟨?_, horder.pairwise_offset (hstarts.imp Nat.le_of_lt) hend, fun p hp => ?_⟩
  · obtain ⟨deep, parentheses, braces, hsub, hbraces, hparentheses, hopen, hproblems⟩ := horder
    have hincreasing : (deep.map (·.span.start)).Pairwise (· < ·) :=
      List.pairwise_map.mpr (hstarts.sublist hsub)
    refine ⟨deep, parentheses, braces, hsub, hbraces, hincreasing, hparentheses, hopen, ?_⟩
    rw [hproblems]
    simp [Fault.message, Function.comp_def]
  · rcases horder.offset_cases hp with ⟨t, ht, hoffset⟩ | hoffset
    · rw [hoffset]
      exact ⟨hend t ht, (within_of_mem_tokens ht).start⟩
    · rw [hoffset]
      exact ⟨Nat.le_refl _, isBoundary_utf8ByteSize source⟩

end Document

end PagePreview
