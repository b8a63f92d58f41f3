/-
PagePreview.Document — a page description as a tree.

The tree is built from the marks of the reading. The nodes that are still
open are kept innermost first: a property annotates the innermost, a leaf
is added to it, an opening puts a new node in front, and a closing adds the
innermost to the one around it. What is open at the end is closed.

* `OpenNodes.apply` — what one mark does to the open nodes.
* `Document.ofMarks` — the tree of all marks, and the problems among them.
* `Document.parse` — the document that a source stands for.
-/
import PagePreview.Document.Mark
import PagePreview.Node
import PagePreview.Source.Lexer

namespace PagePreview

/-- The nodes that are still open: the innermost, and those around it from
the inside out. The last of them is the root. -/
structure OpenNodes where
  innermost : Node
  outer : List Node

namespace OpenNodes

def start : OpenNodes := ⟨Node.root, []⟩

/-- Annotates the innermost open node, if there is a value. -/
def annotate (o : OpenNodes) (p : Property) : Option String → OpenNodes
  | none => o
  | some value => { o with innermost := o.innermost.annotate p value }

/-- Adds a finished node to the innermost open one. -/
def add (o : OpenNodes) (n : Node) : OpenNodes :=
  { o with innermost := o.innermost.append n }

def enter (o : OpenNodes) (n : Node) : OpenNodes :=
  ⟨n, o.innermost :: o.outer⟩

/-- Closes the innermost open node. The root stays open. -/
def leave (o : OpenNodes) : OpenNodes :=
  match o.outer with
  | [] => o
  | parent :: outer => ⟨parent.append o.innermost, outer⟩

/-- Closes every node; the result is the root. -/
def close (o : OpenNodes) : Node :=
  o.outer.foldl (fun child parent => parent.append child) o.innermost

/-- The node a call stands for, before its block is read. -/
def nodeOf (kind : NodeKind) (call : CallSite) : Node :=
  { Node.bare kind with label := nonEmpty? call.label? }

def apply (o : OpenNodes) : Document.Mark → OpenNodes
  | .property p call => o.annotate p call.label?
  | .leaf kind call => o.add (nodeOf kind call)
  | .opening kind call => o.enter (nodeOf kind call)
  | .closing => o.leave
  | .problem _ => o

end OpenNodes

/-- A page description as read: its tree, and its problems in the order in
which they were noticed. -/
structure Document where
  root : Node
  problems : List Problem

namespace Document

def ofMarks (marks : List Mark) : Document :=
  ⟨(marks.foldl OpenNodes.apply OpenNodes.start).close, marks.filterMap Mark.problem?⟩

def parse (source : String) : Document :=
  ofMarks (Mark.ofTokens source.utf8ByteSize 0 (tokens source))

end Document

end PagePreview
