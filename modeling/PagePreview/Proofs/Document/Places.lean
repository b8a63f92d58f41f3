/-
PagePreview.Proofs.Document.Places — the tree of a document does not depend
on where its words stand.

The reading takes the places of the words along only to say where something
is wrong. Forgetting them and reading the words is the same as reading the
words and forgetting the places among the marks, and of a mark the tree
takes nothing but what it says. So a document can be read off the words of
its source, whatever stands between them.

* `Document.Mark.ofTokens_unplaced` — reading and forgetting commute.
* `OpenNodes.apply_unplaced` — the tree takes no place from a mark.
* `Document.parse_unplaced` — the tree and the faults of a source, read off
  its words.
* `Document.parse_of_derives_unplaced` — those of a source whose words derive
  from the grammar.
-/
import PagePreview.Proofs.Document.Derivation
import PagePreview.Proofs.Source.Relocate

namespace PagePreview

/-! ## Words without their places -/

/-- A place that says nothing. -/
def Span.nowhere : Span := ⟨0, 0⟩

/-- The word as a token that stands nowhere. -/
def Lexeme.token (l : Lexeme) : Token :=
  ⟨l, .nowhere⟩

def Token.unplaced (t : Token) : Token :=
  t.lexeme.token

@[simp] theorem Token.isPunct_unplaced (t : Token) (c : Char) :
    t.unplaced.isPunct c = t.isPunct c := rfl

theorem openBlock?_unplaced (ts : List Token) :
    openBlock? (ts.map Token.unplaced) =
      (openBlock? ts).map fun opened => (.nowhere, opened.2.map Token.unplaced) :=
  openBlock?_relocate (fun _ => 0) ts

/-! ## Calls -/

namespace CallSite

def unplaced (call : CallSite) : CallSite where
  name := call.name
  nameSpan := .nowhere
  arguments := call.arguments.map Token.unplaced
  closing := call.closing.map fun _ => .nowhere

theorem label?_unplaced (call : CallSite) : call.unplaced.label? = call.label? :=
  call.label?_relocate fun _ => 0

theorem read?_unplaced (ts : List Token) :
    read? (ts.map Token.unplaced) =
      (read? ts).map fun r => (r.1.unplaced, r.2.map Token.unplaced) :=
  read?_relocate (fun _ => 0) ts

end CallSite

namespace Document

theorem skipBlock_unplaced (depth : Nat) (ts : List Token) :
    skipBlock depth (ts.map Token.unplaced) = (skipBlock depth ts).map Token.unplaced := by
  fun_induction skipBlock depth ts <;> simp_all [skipBlock]

namespace Mark

def unplaced : Mark → Mark
  | property p call => property p call.unplaced
  | leaf kind call => leaf kind call.unplaced
  | opening kind call => opening kind call.unplaced
  | closing => closing
  | problem p => problem ⟨p.fault, 0⟩

theorem ofArguments_unplaced (sourceEnd : Nat) (call : CallSite) :
    ofArguments 0 call.unplaced = (ofArguments sourceEnd call).map unplaced := by
  unfold ofArguments
  cases hclosing : call.closing <;> simp [CallSite.unplaced, hclosing, unplaced]

/-- Words that stand nowhere are read as marks that say nothing of places. -/
theorem ofTokens_unplaced (sourceEnd depth : Nat) (ts : List Token) :
    ofTokens 0 depth (ts.map Token.unplaced) = (ofTokens sourceEnd depth ts).map unplaced := by
  induction ts using walk_induction generalizing depth with
  | nil =>
    rw [List.map_nil, ofTokens_nil, ofTokens_nil, List.map_replicate]
    rfl
  | property ts p call rest hread hp ih =>
    have hread' := CallSite.read?_unplaced ts
    rw [hread] at hread'
    rw [ofTokens_property hread hp, ofTokens_property hread' hp, List.map_append, List.map_cons,
      ih depth, ofArguments_unplaced sourceEnd]
    rfl
  | leaf ts call rest hread he hblock ih =>
    have hread' := CallSite.read?_unplaced ts
    have hblock' := openBlock?_unplaced rest
    rw [hread] at hread'
    rw [hblock] at hblock'
    rw [ofTokens_leaf hread he hblock, ofTokens_leaf hread' he hblock', List.map_append,
      List.map_cons, ih depth, ofArguments_unplaced sourceEnd]
    rfl
  | block ts call rest brace inner hread he hblock ih =>
    have hread' := CallSite.read?_unplaced ts
    have hblock' := openBlock?_unplaced rest
    rw [hread] at hread'
    rw [hblock] at hblock'
    rw [ofTokens_block hread he hblock, ofTokens_block hread' he hblock', List.map_append,
      ofArguments_unplaced sourceEnd]
    split_ifs with hdeep
    · rw [skipBlock_unplaced, ih _ (length_skipBlock_le 1 inner) depth]
      rfl
    · rw [ih inner (Nat.le_refl _) (depth + 1)]
      rfl
  | opening brace rest ih =>
    rw [ofTokens_opening, ← ih depth]
    exact ofTokens_opening
  | closing brace rest ih =>
    rw [ofTokens_closing, List.map_cons, List.map_cons, ← ih (depth - 1)]
    exact ofTokens_closing
  | other t rest hread hopening hclosing ih =>
    have hread' := CallSite.read?_unplaced (t :: rest)
    rw [hread] at hread'
    rw [ofTokens_other hread hclosing, ← ih depth]
    exact ofTokens_other hread' hclosing

theorem filterMap_problem?_unplaced (marks : List Mark) :
    (marks.map unplaced).filterMap problem? =
      (marks.filterMap problem?).map fun p => ⟨p.fault, 0⟩ := by
  rw [List.filterMap_map, List.map_filterMap]
  congr 1
  funext m
  cases m <;> rfl

end Mark

end Document

/-! ## The tree -/

theorem OpenNodes.nodeOf_unplaced (kind : NodeKind) (call : CallSite) :
    nodeOf kind call.unplaced = nodeOf kind call := by
  rw [nodeOf, nodeOf, call.label?_unplaced]

/-- The tree takes no place from a mark. -/
theorem OpenNodes.apply_unplaced (o : OpenNodes) (m : Document.Mark) :
    o.apply m.unplaced = o.apply m := by
  cases m with
  | property p call =>
    show o.annotate p call.unplaced.label? = o.annotate p call.label?
    rw [call.label?_unplaced]
  | leaf kind call => exact congrArg o.add (nodeOf_unplaced kind call)
  | opening kind call => exact congrArg o.enter (nodeOf_unplaced kind call)
  | closing => rfl
  | problem p => rfl

namespace Document

theorem root_ofMarks_unplaced (marks : List Mark) :
    (ofMarks (marks.map Mark.unplaced)).root = (ofMarks marks).root := by
  simp only [ofMarks, List.foldl_map, OpenNodes.apply_unplaced]

/-- The tree and the faults of a source are those of its words, wherever the
words stand. -/
theorem parse_unplaced (source : String) :
    let marks := Mark.ofTokens 0 0 ((tokens source).map Token.unplaced)
    (parse source).root = (ofMarks marks).root ∧
      (parse source).problems.map (·.fault) = (ofMarks marks).problems.map (·.fault) := by
  intro marks
  have hmarks : marks =
      (Mark.ofTokens source.utf8ByteSize 0 (tokens source)).map Mark.unplaced :=
    Mark.ofTokens_unplaced _ _ _
  rw [hmarks]
  constructor
  · exact (root_ofMarks_unplaced _).symm
  · show _ = (((Mark.ofTokens _ 0 _).map Mark.unplaced).filterMap Mark.problem?).map _
    rw [Mark.filterMap_problem?_unplaced, List.map_map]
    rfl

/-- The tree and the faults of a source whose words derive from the
grammar, wherever the words stand. -/
theorem parse_of_derives_unplaced {source : String} {calls : List CallTree}
    (h : Derives calls ((tokens source).map Token.unplaced)) :
    (parse source).root = CallTree.document calls ∧
      (parse source).problems.map (·.fault) =
        (CallTree.tooDeepAll 0 calls).map fun _ => .nestingTooDeep := by
  obtain ⟨hroot, hfaults⟩ := parse_unplaced source
  rw [ofTokens_of_derives h] at hroot hfaults
  constructor
  · rw [hroot, ← CallTree.fill_root, ofMarks, foldl_marksAll]
    rfl
  · rw [hfaults, ofMarks, filterMap_problem?_marksAll, List.map_map]
    rfl

end Document

end PagePreview
