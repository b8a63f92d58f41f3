/-
PagePreview.Node — the tree that a page description stands for.

* `Node` — a kind, four optional texts and the children.
* `Node.annotate` — what a property call does to the node it stands in.
* `Node.preorder` — every node, parents before children.
-/
import PagePreview.Vocabulary

namespace PagePreview

structure Node where
  kind : NodeKind
  label : Option String
  style : Option String
  bind : Option String
  onClick : Option String
  children : List Node
  deriving Repr

/-- Optional texts count as absent where they are empty. -/
def nonEmpty? (s : Option String) : Option String :=
  s.filter (· ≠ "")

theorem nonEmpty?_eq_some_iff {s : Option String} {value : String} :
    nonEmpty? s = some value ↔ s = some value ∧ value ≠ "" := by
  simp [nonEmpty?, Option.filter_eq_some_iff]

theorem nonEmpty?_eq_none_iff {s : Option String} :
    nonEmpty? s = none ↔ ∀ value ∈ s, value = "" := by
  simp [nonEmpty?, Option.filter_eq_none_iff]

namespace Node

def bare (kind : NodeKind) : Node :=
  ⟨kind, none, none, none, none, []⟩

/-- The root of a document that says nothing. -/
def root : Node := bare .container

/-- Gives a property to the node. The last value wins, and an empty value
is ignored. -/
def annotate (n : Node) (p : Property) (value : String) : Node :=
  if value = "" then n
  else match p with
    | .css => { n with style := some value }
    | .bind => { n with bind := some value }
    | .onClick => { n with onClick := some value }

def append (n : Node) (child : Node) : Node :=
  { n with children := n.children ++ [child] }

mutual

/-- The node and its descendants with their depths, parents before
children and children in order. -/
def preorderFrom (depth : Nat) : Node → List (Nat × Node)
  | ⟨kind, label, style, bind, onClick, children⟩ =>
    (depth, ⟨kind, label, style, bind, onClick, children⟩) ::
      preorderList (depth + 1) children

def preorderList (depth : Nat) : List Node → List (Nat × Node)
  | [] => []
  | n :: rest => preorderFrom depth n ++ preorderList depth rest

end

/-- The node and its descendants, parents before children. -/
def preorder (n : Node) : List Node :=
  (n.preorderFrom 0).map (·.2)

mutual

/-- The depths at which the nodes are counted do not change their order. -/
theorem map_preorderFrom : ∀ (depth : Nat) (n : Node),
    (n.preorderFrom depth).map (·.2) = n.preorder
  | depth, ⟨kind, label, style, bind, onClick, children⟩ => by
      simp [preorder, preorderFrom, map_preorderList _ children]

theorem map_preorderList : ∀ (depth : Nat) (ns : List Node),
    (preorderList depth ns).map (·.2) = ns.flatMap preorder
  | _, [] => rfl
  | depth, n :: rest => by
      simp [preorderList, map_preorderFrom depth n, map_preorderList depth rest]

end

theorem preorder_eq (n : Node) : n.preorder = n :: n.children.flatMap preorder := by
  cases n
  simp [preorder, preorderFrom, map_preorderList]

end Node

end PagePreview
