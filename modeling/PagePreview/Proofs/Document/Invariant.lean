/-
PagePreview.Proofs.Document.Invariant — what holds of every node of a
document.

A tree grows in three ways: a call creates a node, a property call
annotates the node that is open, and a finished node becomes the last child
of the node around it. What holds of the root at the start and is kept in
all three ways holds of every node of every document. It may speak of the
level of the node, as no node that is still open has more than
`depthLimit` nodes around it.

* `NodeInvariant` — the root, and the three ways to grow.
* `NodeInvariant.apply` — one mark keeps what holds of the open nodes.
* `NodeInvariant.foldl_ofTokens` — so do all marks of a token list.
* `NodeInvariant.throughout_parse` — what holds of the nodes of a document.
-/
import PagePreview.Proofs.Analysis.Agreement

namespace PagePreview

open Document (depthLimit)

/-! ## A node and its descendants -/

namespace Node

theorem preorderList_eq_flatMap (level : Nat) (ns : List Node) :
    preorderList level ns = ns.flatMap (preorderFrom level) := by
  induction ns with
  | nil => rfl
  | cons n ns ih => rw [preorderList, ih, List.flatMap_cons]

/-- It holds of the node, which stands at the level, and of all its
descendants. -/
def Throughout (holds : Nat → Node → Prop) (level : Nat) (n : Node) : Prop :=
  ∀ x ∈ n.preorderFrom level, holds x.1 x.2

variable {holds : Nat → Node → Prop} {level : Nat} {n : Node}

theorem throughout_iff :
    n.Throughout holds level ↔
      holds level n ∧ ∀ child ∈ n.children, child.Throughout holds (level + 1) := by
  obtain ⟨kind, label, style, bind, onClick, children⟩ := n
  simp only [Throughout, preorderFrom, List.forall_mem_cons, preorderList_eq_flatMap,
    List.mem_flatMap]
  constructor
  · rintro ⟨hnode, hrest⟩
    exact ⟨hnode, fun child hchild x hx => hrest x ⟨child, hchild, hx⟩⟩
  · rintro ⟨hnode, hrest⟩
    exact ⟨hnode, fun x ⟨child, hchild, hx⟩ => hrest child hchild x hx⟩

theorem Throughout.append {child : Node} (h : n.Throughout holds level)
    (hchild : child.Throughout holds (level + 1)) (hnode : holds level (n.append child)) :
    (n.append child).Throughout holds level := by
  rw [throughout_iff] at h ⊢
  refine ⟨hnode, ?_⟩
  intro c hc
  rcases List.mem_append.mp hc with hc | hc
  · exact h.2 c hc
  · rw [List.mem_singleton.mp hc]
    exact hchild

theorem children_annotate (n : Node) (p : Property) (value : String) :
    (n.annotate p value).children = n.children := by
  unfold annotate
  split
  · rfl
  · cases p <;> rfl

end Node

/-! ## The open nodes -/

/-- What holds of the root of an empty document, and is kept while a tree
grows. `allowed` says which properties are given to nodes of which kind. -/
structure NodeInvariant (holds : Nat → Node → Prop) (allowed : Property → NodeKind → Prop) :
    Prop where
  root : holds 0 .root
  created : ∀ {level : Nat} (kind : NodeKind) (call : CallSite), level ≤ depthLimit + 1 →
    holds level (OpenNodes.nodeOf kind call)
  annotate : ∀ {level : Nat} {n : Node} (p : Property) (value : String), level ≤ depthLimit →
    allowed p n.kind → holds level n → holds level (n.annotate p value)
  append : ∀ {level : Nat} {n : Node} (child : Node), level ≤ depthLimit → holds level n →
    holds level (n.append child)

namespace OpenNodes

/-- It holds of the open nodes, which are given from the inside out, and of
all nodes that they have so far. -/
def AllThroughout (holds : Nat → Node → Prop) : List Node → Prop
  | [] => True
  | n :: outer => n.Throughout holds outer.length ∧ AllThroughout holds outer

/-- The nodes are open no deeper than the limit, and it holds of all of
them. -/
structure Keeps (o : OpenNodes) (holds : Nat → Node → Prop) : Prop where
  depth : o.outer.length ≤ depthLimit
  throughout : AllThroughout holds (o.innermost :: o.outer)

/-- The mark gives a property that is allowed, or opens a node within the
limit, or is any other. -/
def Admits (allowed : Property → NodeKind → Prop) (o : OpenNodes) : Document.Mark → Prop
  | .property p _ => allowed p o.innermost.kind
  | .opening _ _ => o.outer.length < depthLimit
  | _ => True

/-- Problems do not change the tree. -/
theorem foldl_apply_replicate (n : Nat) (p : Problem) (o : OpenNodes) :
    (List.replicate n (.problem p)).foldl apply o = o := by
  induction n with
  | zero => rfl
  | succ n ih => exact ih

theorem foldl_apply_ofArguments (sourceEnd : Nat) (call : CallSite) (o : OpenNodes) :
    (Document.Mark.ofArguments sourceEnd call).foldl apply o = o := by
  unfold Document.Mark.ofArguments
  split <;> rfl

theorem propertyTrace_ofArguments_append (sourceEnd : Nat) (call : CallSite) (o : OpenNodes)
    (marks : List Document.Mark) :
    o.propertyTrace (Document.Mark.ofArguments sourceEnd call ++ marks) =
      o.propertyTrace marks := by
  unfold Document.Mark.ofArguments
  split <;> rfl

theorem outer_annotate (o : OpenNodes) (p : Property) (value : Option String) :
    (o.annotate p value).outer = o.outer := by
  cases value <;> rfl

theorem length_outer_leave (o : OpenNodes) : o.leave.outer.length = o.outer.length - 1 := by
  unfold leave
  split
  · next h => simp [h]
  · next h => simp [h]

end OpenNodes

namespace NodeInvariant

variable {holds : Nat → Node → Prop} {allowed : Property → NodeKind → Prop} {o : OpenNodes}

theorem throughout_nodeOf (h : NodeInvariant holds allowed) {level : Nat}
    (hlevel : level ≤ depthLimit + 1) (kind : NodeKind) (call : CallSite) :
    (OpenNodes.nodeOf kind call).Throughout holds level := by
  rw [Node.throughout_iff]
  exact ⟨h.created kind call hlevel, by simp [OpenNodes.nodeOf, Node.bare]⟩

/-- The innermost open node becomes a child of the one around it. -/
theorem throughout_append (h : NodeInvariant holds allowed) {n parent : Node} {outer : List Node}
    (hdepth : outer.length ≤ depthLimit)
    (hall : OpenNodes.AllThroughout holds (n :: parent :: outer)) :
    OpenNodes.AllThroughout holds (parent.append n :: outer) := by
  obtain ⟨hn, hparent, houter⟩ := hall
  have hnode : holds outer.length parent := (Node.throughout_iff.mp hparent).1
  exact ⟨hparent.append hn (h.append n hdepth hnode), houter⟩

/-- One mark. -/
theorem apply (h : NodeInvariant holds allowed) (ho : o.Keeps holds) {m : Document.Mark}
    (hadmits : o.Admits allowed m) : (o.apply m).Keeps holds := by
  obtain ⟨inner, outer⟩ := o
  obtain ⟨hdepth, hinner, houter⟩ := ho
  cases m with
  | property p call =>
    show ((OpenNodes.mk inner outer).annotate p call.label?).Keeps holds
    cases call.label? with
    | none => exact ⟨hdepth, hinner, houter⟩
    | some value =>
      refine ⟨hdepth, ?_, houter⟩
      rw [OpenNodes.annotate, Node.throughout_iff, Node.children_annotate]
      obtain ⟨hnode, hchildren⟩ := Node.throughout_iff.mp hinner
      exact ⟨h.annotate p value hdepth hadmits hnode, hchildren⟩
  | leaf kind call =>
    have hleaf := h.throughout_nodeOf (Nat.succ_le_succ hdepth) kind call
    exact ⟨hdepth, h.throughout_append hdepth ⟨hleaf, hinner, houter⟩⟩
  | opening kind call =>
    have hopened := h.throughout_nodeOf (Nat.succ_le_succ hdepth) kind call
    exact ⟨hadmits, hopened, hinner, houter⟩
  | closing =>
    cases outer with
    | nil => exact ⟨hdepth, hinner, houter⟩
    | cons parent outer =>
      have houter' : outer.length ≤ depthLimit := Nat.le_of_succ_le hdepth
      exact ⟨houter', h.throughout_append houter' ⟨hinner, houter⟩⟩
  | problem p => exact ⟨hdepth, hinner, houter⟩

/-- The marks of a token list that is read inside of the open nodes. -/
theorem foldl_ofTokens (h : NodeInvariant holds allowed) (sourceEnd : Nat) (ts : List Token)
    (depth : Nat) (hdepth : o.outer.length = depth) (ho : o.Keeps holds)
    (hallowed : ∀ x ∈ o.propertyTrace (Document.Mark.ofTokens sourceEnd depth ts),
      allowed x.1 x.2) :
    ((Document.Mark.ofTokens sourceEnd depth ts).foldl OpenNodes.apply o).Keeps holds := by
  induction ts using walk_induction generalizing depth o with
  | nil =>
    rw [Document.Mark.ofTokens_nil, OpenNodes.foldl_apply_replicate]
    exact ho
  | property ts p call rest hread hp ih =>
    rw [Document.Mark.ofTokens_property hread hp] at hallowed ⊢
    rw [OpenNodes.propertyTrace_ofArguments_append] at hallowed
    rw [List.foldl_append, OpenNodes.foldl_apply_ofArguments, List.foldl_cons]
    have hhere : allowed p o.innermost.kind := hallowed _ List.mem_cons_self
    refine ih depth ?_ (h.apply ho hhere) fun x hx => hallowed x (List.mem_cons_of_mem _ hx)
    rw [← hdepth, OpenNodes.apply, OpenNodes.outer_annotate]
  | leaf ts call rest hread he hblock ih =>
    rw [Document.Mark.ofTokens_leaf hread he hblock] at hallowed ⊢
    rw [OpenNodes.propertyTrace_ofArguments_append] at hallowed
    rw [List.foldl_append, OpenNodes.foldl_apply_ofArguments, List.foldl_cons]
    exact ih depth hdepth (h.apply ho trivial) hallowed
  | block ts call rest brace inner hread he hblock ih =>
    rw [Document.Mark.ofTokens_block hread he hblock] at hallowed ⊢
    rw [OpenNodes.propertyTrace_ofArguments_append] at hallowed
    rw [List.foldl_append, OpenNodes.foldl_apply_ofArguments]
    split_ifs at hallowed ⊢ with hdeep
    · exact ih _ (Document.length_skipBlock_le 1 inner) depth hdepth (h.apply ho trivial) hallowed
    · have hopen : o.outer.length < depthLimit := by omega
      refine ih inner (Nat.le_refl _) (depth + 1) ?_ (h.apply ho hopen) hallowed
      exact congrArg (· + 1) hdepth
  | opening brace rest ih =>
    rw [Document.Mark.ofTokens_opening] at hallowed ⊢
    exact ih depth hdepth ho hallowed
  | closing brace rest ih =>
    rw [Document.Mark.ofTokens_closing] at hallowed ⊢
    refine ih (depth - 1) ?_ (h.apply ho trivial) hallowed
    rw [OpenNodes.apply, OpenNodes.length_outer_leave, hdepth]
  | other t rest hread hopening hclosing ih =>
    rw [Document.Mark.ofTokens_other hread hclosing] at hallowed ⊢
    exact ih depth hdepth ho hallowed

/-- At the end all nodes are closed. -/
theorem throughout_close (h : NodeInvariant holds allowed) (ho : o.Keeps holds) :
    o.close.Throughout holds 0 := by
  obtain ⟨inner, outer⟩ := o
  induction outer generalizing inner with
  | nil => exact ho.throughout.1
  | cons parent outer ih =>
    have hdepth : outer.length ≤ depthLimit := Nat.le_of_succ_le ho.depth
    exact ih (parent.append inner) ⟨hdepth, h.throughout_append hdepth ho.throughout⟩

/-- It holds of every node of a document. -/
theorem throughout_parse (h : NodeInvariant holds allowed) {source : String}
    (hallowed : ∀ x ∈ OpenNodes.start.propertyTrace
      (Document.Mark.ofTokens source.utf8ByteSize 0 (tokens source)), allowed x.1 x.2) :
    (Document.parse source).root.Throughout holds 0 := by
  have hroot : Node.root.Throughout holds 0 :=
    Node.throughout_iff.mpr ⟨h.root, by simp [Node.root, Node.bare]⟩
  have hstart : OpenNodes.start.Keeps holds := ⟨Nat.zero_le _, hroot, trivial⟩
  exact h.throughout_close (h.foldl_ofTokens _ _ 0 rfl hstart hallowed)

end NodeInvariant

end PagePreview
