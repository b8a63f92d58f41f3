/-
PagePreview.Proofs.Document.Tree — the nodes of a document and the calls
that create them.

The tree of a document has one node for each call that is no property, and
the root. In the order that puts parents before children the nodes come as
their calls do in the source, so what a node owes to its own call, its kind
and its label (`Node.heading`), can be read off the marks.

* `headings_close_apply` — what one mark adds to the nodes.
* `headings_ofMarks` — the nodes of a document are those of its marks.
* `kindFits_ofTokens` — the calls that create nodes are elements, and their
  nodes are of the kind that the vocabulary says.
-/
import PagePreview.Document
import PagePreview.Proofs.Document.Mark

namespace PagePreview

/-! ## Headings -/

/-- What a node owes to the call that creates it. -/
def Node.heading (n : Node) : NodeKind × Option String :=
  (n.kind, n.label)

/-- The headings of a node and its descendants, parents before children. -/
def Node.headings (n : Node) : List (NodeKind × Option String) :=
  n.preorder.map Node.heading

namespace Node

theorem headings_eq (n : Node) : n.headings = n.heading :: n.children.flatMap headings := by
  rw [headings, preorder_eq, List.map_cons, List.map_flatMap]
  rfl

theorem headings_append (n child : Node) :
    (n.append child).headings = n.headings ++ child.headings := by
  rw [headings_eq, headings_eq n]
  simp [append, heading]

theorem headings_annotate (n : Node) (p : Property) (value : String) :
    (n.annotate p value).headings = n.headings := by
  rw [headings_eq, headings_eq n]
  unfold annotate
  split
  · rfl
  · cases p <;> rfl

end Node

/-! ## The nodes that are open -/

namespace OpenNodes

theorem headings_close : ∀ (outer : List Node) (inner : Node),
    (OpenNodes.mk inner outer).close.headings =
      outer.reverse.flatMap Node.headings ++ inner.headings
  | [], _ => rfl
  | parent :: outer, inner => by
      have hclose : (OpenNodes.mk inner (parent :: outer)).close =
          (OpenNodes.mk (parent.append inner) outer).close := rfl
      rw [hclose, headings_close outer, Node.headings_append]
      simp

theorem headings_close_annotate (o : OpenNodes) (p : Property) (value : Option String) :
    (o.annotate p value).close.headings = o.close.headings := by
  obtain ⟨inner, outer⟩ := o
  cases value with
  | none => rfl
  | some text =>
    rw [annotate, headings_close, headings_close, Node.headings_annotate]

theorem headings_close_add (o : OpenNodes) (n : Node) :
    (o.add n).close.headings = o.close.headings ++ n.headings := by
  obtain ⟨inner, outer⟩ := o
  rw [add, headings_close, headings_close, Node.headings_append, List.append_assoc]

theorem headings_close_enter (o : OpenNodes) (n : Node) :
    (o.enter n).close.headings = o.close.headings ++ n.headings := by
  obtain ⟨inner, outer⟩ := o
  rw [enter, headings_close, headings_close]
  simp

theorem headings_close_leave (o : OpenNodes) : o.leave.close.headings = o.close.headings := by
  obtain ⟨inner, outer⟩ := o
  cases outer <;> rfl

end OpenNodes

/-! ## The calls that create nodes -/

/-- The call that creates a node with the mark, and the kind of the node. -/
def Document.Mark.created? : Document.Mark → Option (NodeKind × CallSite)
  | leaf kind call => some (kind, call)
  | opening kind call => some (kind, call)
  | _ => none

/-- The heading of the node that a call creates. -/
def headingOf (created : NodeKind × CallSite) : NodeKind × Option String :=
  (created.1, nonEmpty? created.2.label?)

theorem OpenNodes.headings_nodeOf (kind : NodeKind) (call : CallSite) :
    (OpenNodes.nodeOf kind call).headings = [headingOf (kind, call)] := by
  rw [Node.headings_eq]
  rfl

/-- A mark that creates a node adds its heading behind those of the nodes
that are there already, and other marks add none. -/
theorem OpenNodes.headings_close_apply (o : OpenNodes) (m : Document.Mark) :
    (o.apply m).close.headings = o.close.headings ++ m.created?.toList.map headingOf := by
  cases m with
  | property p call => exact (headings_close_annotate o p _).trans (List.append_nil _).symm
  | leaf kind call => exact (headings_close_add o _).trans (by rw [headings_nodeOf]; rfl)
  | opening kind call => exact (headings_close_enter o _).trans (by rw [headings_nodeOf]; rfl)
  | closing => exact (headings_close_leave o).trans (List.append_nil _).symm
  | problem p => exact (List.append_nil _).symm

theorem OpenNodes.headings_close_foldl : ∀ (marks : List Document.Mark) (o : OpenNodes),
    (marks.foldl OpenNodes.apply o).close.headings =
      o.close.headings ++ (marks.filterMap Document.Mark.created?).map headingOf
  | [], o => by simp
  | m :: marks, o => by
      rw [List.foldl_cons, headings_close_foldl marks, headings_close_apply, List.append_assoc]
      cases h : m.created? <;> simp [h]

/-- The nodes of a document are the root and those that the marks create,
in the order of the marks. -/
theorem Document.headings_ofMarks (marks : List Document.Mark) :
    (Document.ofMarks marks).root.headings =
      (.container, none) :: (marks.filterMap Document.Mark.created?).map headingOf :=
  OpenNodes.headings_close_foldl marks OpenNodes.start

/-! ## The kinds of the nodes -/

namespace Document.Mark

/-- A mark that creates a node does so for an element, and the node has the
kind that the vocabulary gives to the element. -/
def KindFits (m : Mark) : Prop :=
  ∀ kind call, m.created? = some (kind, call) →
    call.IsElement ∧ kind = (Call.resolve call.name).nodeKind

theorem kindFits_of_created?_eq_none {m : Mark} (h : m.created? = none) : m.KindFits := by
  intro kind call hcreated
  simp [h] at hcreated

theorem kindFits_element {call : CallSite} (he : call.IsElement) :
    (leaf (Call.resolve call.name).nodeKind call).KindFits ∧
      (opening (Call.resolve call.name).nodeKind call).KindFits := by
  constructor <;>
  · intro kind site hcreated
    obtain ⟨rfl, rfl⟩ : _ ∧ _ := by simpa [created?] using hcreated
    exact ⟨he, rfl⟩

theorem kindFits_ofArguments {sourceEnd : Nat} {call : CallSite} {m : Mark}
    (hm : m ∈ ofArguments sourceEnd call) : m.KindFits := by
  unfold ofArguments at hm
  split at hm
  · obtain rfl := List.mem_singleton.mp hm
    exact kindFits_of_created?_eq_none rfl
  · simp at hm

theorem kindFits_ofTokens (sourceEnd depth : Nat) (ts : List Token) :
    ∀ m ∈ ofTokens sourceEnd depth ts, m.KindFits := by
  induction ts using walk_induction generalizing depth with
  | nil =>
    intro m hm
    rw [ofTokens_nil] at hm
    rw [List.eq_of_mem_replicate hm]
    exact kindFits_of_created?_eq_none rfl
  | property ts p call rest hread hp ih =>
    intro m hm
    rw [ofTokens_property hread hp, List.mem_append, List.mem_cons] at hm
    rcases hm with hm | rfl | hm
    · exact kindFits_ofArguments hm
    · exact kindFits_of_created?_eq_none rfl
    · exact ih depth m hm
  | leaf ts call rest hread he hblock ih =>
    intro m hm
    rw [ofTokens_leaf hread he hblock, List.mem_append, List.mem_cons] at hm
    rcases hm with hm | rfl | hm
    · exact kindFits_ofArguments hm
    · exact (kindFits_element he).1
    · exact ih depth m hm
  | block ts call rest brace inner hread he hblock ih =>
    intro m hm
    rw [ofTokens_block hread he hblock, List.mem_append] at hm
    rcases hm with hm | hm
    · exact kindFits_ofArguments hm
    · split at hm
      · rw [List.mem_cons, List.mem_cons] at hm
        rcases hm with rfl | rfl | hm
        · exact kindFits_of_created?_eq_none rfl
        · exact (kindFits_element he).1
        · exact ih _ (length_skipBlock_le 1 inner) depth m hm
      · rw [List.mem_cons] at hm
        rcases hm with rfl | hm
        · exact (kindFits_element he).2
        · exact ih _ (Nat.le_refl _) (depth + 1) m hm
  | opening brace rest ih =>
    rw [ofTokens_opening]
    exact ih depth
  | closing brace rest ih =>
    intro m hm
    rw [ofTokens_closing, List.mem_cons] at hm
    rcases hm with rfl | hm
    · exact kindFits_of_created?_eq_none rfl
    · exact ih (depth - 1) m hm
  | other t rest hread hopening hclosing ih =>
    rw [ofTokens_other hread hclosing]
    exact ih depth

end Document.Mark

end PagePreview
