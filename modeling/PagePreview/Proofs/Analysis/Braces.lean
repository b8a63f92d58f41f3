/-
PagePreview.Proofs.Analysis.Braces — unclosed blocks and the depth of the
braces.

The reading of a document opens a block only behind an element, so where a
block stands anywhere else its closing brace ends a block around it. The
reading is then less deep than the braces say, and it never is deeper: the
blocks it reports as unclosed are at most as many as there are braces open
at the end, where a closing brace too many counts for nothing. If the braces
are balanced, none is reported.

* `Analysis.Mark.depthAfter` — the running depth of the braces.
* `Analysis.Mark.Balanced` — no brace is closed before it is opened, and
  none is left open.
* `Document.countP_expectedBrace_le_depth` — the bound.
-/
import PagePreview.Document
import PagePreview.Proofs.Analysis.Mark

namespace PagePreview

namespace Analysis.Mark

/-! ## The running depth -/

/-- The depth behind a mark: one more behind an opening brace and one less
behind a closing one, but never less than nothing. -/
def depthAfter (depth : Nat) (m : Mark) : Nat :=
  ((depth : Int) + m.balance).toNat

@[simp] theorem depthAfter_property (depth : Nat) (p : Property) (call : CallSite) :
    depthAfter depth (property p call) = depth := by
  simp [depthAfter, balance]

@[simp] theorem depthAfter_element (depth : Nat) (call : CallSite) :
    depthAfter depth (element call) = depth := by
  simp [depthAfter, balance]

@[simp] theorem depthAfter_opening (depth : Nat) (owner : Option NodeKind) :
    depthAfter depth (opening owner) = depth + 1 := by
  simp only [depthAfter, balance]
  omega

@[simp] theorem depthAfter_closing (depth : Nat) : depthAfter depth closing = depth - 1 := by
  simp only [depthAfter, balance]
  omega

theorem depthAfter_mono {depth depth' : Nat} (h : depth ≤ depth') (m : Mark) :
    depthAfter depth m ≤ depthAfter depth' m := by
  simp only [depthAfter]
  omega

/-- Without some of its opening braces a text is at most as deep. -/
theorem foldl_depthAfter_filter_le : ∀ (marks : List Mark) {depth depth' : Nat},
    depth ≤ depth' →
    (marks.filter (· ≠ .opening none)).foldl depthAfter depth ≤
      marks.foldl depthAfter depth'
  | [], _, _, h => h
  | m :: marks, depth, depth', h => by
      by_cases hbare : m = .opening none
      · subst hbare
        rw [List.filter_cons_of_neg (by simp), List.foldl_cons]
        refine foldl_depthAfter_filter_le marks ?_
        rw [depthAfter_opening]
        omega
      · rw [List.filter_cons_of_pos (by simpa using hbare), List.foldl_cons, List.foldl_cons]
        exact foldl_depthAfter_filter_le marks (depthAfter_mono h m)

/-- The analysis keeps as many blocks as the braces are deep. -/
theorem length_enclose (blocks : List NodeKind) (m : Mark) :
    (m.enclose blocks).length = depthAfter blocks.length m := by
  cases m <;> simp [enclose]

theorem length_foldl_enclose : ∀ (marks : List Mark) (blocks : List NodeKind),
    (marks.foldl enclose blocks).length = marks.foldl depthAfter blocks.length
  | [], _ => rfl
  | m :: marks, blocks => by
      rw [List.foldl_cons, List.foldl_cons, length_foldl_enclose marks, length_enclose]

/-! ## Balanced braces -/

/-- Every brace that is opened is closed behind it, and no other is. -/
structure Balanced (marks : List Mark) : Prop where
  /-- Nowhere are more braces closed than were opened. -/
  nonneg : ∀ front, front <+: marks → 0 ≤ totalBalance front
  /-- At the end all of them are closed. -/
  settled : totalBalance marks = 0

instance (marks : List Mark) : Decidable (Balanced marks) :=
  decidable_of_iff
    ((∀ n < marks.length + 1, 0 ≤ totalBalance (marks.take n)) ∧
      totalBalance marks = 0)
    ⟨fun h => ⟨fun front hfront => by
        rw [List.prefix_iff_eq_take.mp hfront]
        exact h.1 front.length (Nat.lt_succ_of_le hfront.length_le), h.2⟩,
      fun h => ⟨fun n _ => h.nonneg _ (List.take_prefix n marks), h.settled⟩⟩

/-- As long as no brace is closed too many, the depth is the difference of
the braces. -/
theorem foldl_depthAfter_eq_sum : ∀ (marks : List Mark) (depth : Nat),
    (∀ front, front <+: marks → 0 ≤ (depth : Int) + totalBalance front) →
    ((marks.foldl depthAfter depth : Nat) : Int) = depth + totalBalance marks
  | [], depth, _ => by simp
  | m :: marks, depth, h => by
      have hstep : ((depthAfter depth m : Nat) : Int) = depth + m.balance := by
        have hfront := h [m] (by simp)
        rw [totalBalance_cons, totalBalance_nil] at hfront
        simp only [depthAfter]
        omega
      have htail := foldl_depthAfter_eq_sum marks (depthAfter depth m) fun front hfront => by
        have hlonger := h (m :: front) (List.cons_prefix_cons.mpr ⟨rfl, hfront⟩)
        rw [totalBalance_cons] at hlonger
        omega
      rw [List.foldl_cons, htail, hstep, totalBalance_cons]
      omega

theorem Balanced.depth_eq_zero {marks : List Mark} (h : Balanced marks) :
    marks.foldl depthAfter 0 = 0 := by
  have hsum := foldl_depthAfter_eq_sum marks 0 fun front hfront => by
    have hnonneg := h.nonneg front hfront
    omega
  rw [h.settled] at hsum
  omega

end Analysis.Mark

/-! ## Unclosed blocks -/

namespace Document

/-- The reading and the analysis count the blocks that they share alike. -/
theorem Mark.foldl_depthAfter_counterpart (depth : Nat) (m : Mark) :
    m.counterpart.foldl Analysis.Mark.depthAfter depth = depthAfter depth m := by
  cases m <;> simp [counterpart, depthAfter]

theorem Mark.foldl_depthAfter_flatMap_counterpart (marks : List Mark) (depth : Nat) :
    (marks.flatMap counterpart).foldl Analysis.Mark.depthAfter depth =
      marks.foldl depthAfter depth := by
  rw [List.foldl_flatMap]
  simp only [foldl_depthAfter_counterpart]

/-- The problems of a document are those among its marks. -/
theorem mem_problems_ofMarks {marks : List Mark} {p : Problem} :
    p ∈ (ofMarks marks).problems ↔ .problem p ∈ marks := by
  constructor
  · intro hp
    obtain ⟨m, hm, hproblem⟩ := List.mem_filterMap.mp hp
    cases m <;> simp_all [Mark.problem?]
  · intro hp
    exact List.mem_filterMap.mpr ⟨_, hp, rfl⟩

theorem countP_expectedBrace_ofMarks (marks : List Mark) :
    (ofMarks marks).problems.countP (·.fault == .expectedBrace) =
      marks.countP Mark.isUnclosed := by
  show (marks.filterMap Mark.problem?).countP _ = _
  rw [List.countP_filterMap]
  refine List.countP_congr fun m _ => ?_
  cases m <;> simp [Mark.problem?, Mark.isUnclosed]

/-- The document of a source says nothing of blocks that nest too deep. -/
theorem shallow_of_parse {source : String}
    (h : ∀ p ∈ (parse source).problems, p.fault ≠ .nestingTooDeep) :
    Mark.Shallow (Mark.ofTokens source.utf8ByteSize 0 (tokens source)) :=
  fun p hp => h p (mem_problems_ofMarks.mpr hp)

/-- The unclosed blocks of a source are as many as the braces are deep, when
those that follow no element are left out. -/
theorem countP_expectedBrace_eq_depth {source : String}
    (h : ∀ p ∈ (parse source).problems, p.fault ≠ .nestingTooDeep) :
    (parse source).problems.countP (·.fault == .expectedBrace) =
      ((Analysis.Mark.ofTokens (tokens source)).filter (· ≠ .opening none)).foldl
        Analysis.Mark.depthAfter 0 := by
  rw [Mark.filter_ofTokens_eq_flatMap_counterpart source.utf8ByteSize 0 _ (shallow_of_parse h),
    Mark.foldl_depthAfter_flatMap_counterpart, ← Mark.countP_isUnclosed_ofTokens]
  exact countP_expectedBrace_ofMarks _

/-- At most as many blocks are reported as unclosed as there are braces open
at the end. In particular, none is if the braces are balanced. -/
theorem countP_expectedBrace_le_depth {source : String}
    (h : ∀ p ∈ (parse source).problems, p.fault ≠ .nestingTooDeep) :
    (parse source).problems.countP (·.fault == .expectedBrace) ≤
        (Analysis.Mark.ofTokens (tokens source)).foldl Analysis.Mark.depthAfter 0 ∧
      (Analysis.Mark.Balanced (Analysis.Mark.ofTokens (tokens source)) →
        (parse source).problems.countP (·.fault == .expectedBrace) = 0) := by
  have hle : (parse source).problems.countP (·.fault == .expectedBrace) ≤
      (Analysis.Mark.ofTokens (tokens source)).foldl Analysis.Mark.depthAfter 0 := by
    rw [countP_expectedBrace_eq_depth h]
    exact Analysis.Mark.foldl_depthAfter_filter_le _ (Nat.le_refl 0)
  refine ⟨hle, fun hbalanced => ?_⟩
  rw [hbalanced.depth_eq_zero] at hle
  exact Nat.le_zero.mp hle

/-- Two blocks that follow no element: the reading leaves the row at the
first closing brace. -/
def bareBlocks : String := "wce_row() \x7b \x7b \x7d wce_css() \x7b \x7d \x7d"

theorem countP_expectedBrace_le_depth_bareBlocks :
    (∀ p ∈ (parse bareBlocks).problems, p.fault ≠ .nestingTooDeep) ∧
      Analysis.Mark.Balanced (Analysis.Mark.ofTokens (tokens bareBlocks)) ∧
      (parse bareBlocks).problems.countP (·.fault == .expectedBrace) ≤
        (Analysis.Mark.ofTokens (tokens bareBlocks)).foldl Analysis.Mark.depthAfter 0 ∧
      (parse bareBlocks).problems.countP (·.fault == .expectedBrace) = 0 := by
  have hshallow : ∀ p ∈ (parse bareBlocks).problems, p.fault ≠ .nestingTooDeep := by
    have hproblems : (parse bareBlocks).problems = [] := by
      cbv
    simp [hproblems]
  have hbalanced : Analysis.Mark.Balanced (Analysis.Mark.ofTokens (tokens bareBlocks)) := by
    cbv
    decide
  obtain ⟨hle, hzero⟩ := countP_expectedBrace_le_depth hshallow
  exact ⟨hshallow, hbalanced, hle, hzero hbalanced⟩

end Document

end PagePreview
