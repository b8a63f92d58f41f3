/-
PagePreview.Document.Mark — what the reading of a page description notes
down, in source order, before any tree is built.

The reading accepts every source and looks at one call or one token at a
time:

* a property call is marked as such;
* any other call stands for a node, which is opened if a block follows;
* a closing brace ends the innermost block that is open;
* every other token is passed over.

A block that would nest too deep is reported and passed over whole. At the
end of the source, an argument list or a block that is still open is
reported.

* `Mark.ofTokens` — the marks of a token list.
* `Mark.problem?` — the problem that a mark reports.
-/
import PagePreview.Vocabulary
import PagePreview.Source.CallSite

namespace PagePreview

/-- What is wrong with a description. -/
inductive Fault
  /-- An argument list is not closed. -/
  | expectedParenthesis
  /-- A block is not closed. -/
  | expectedBrace
  /-- A block stands inside too many others. -/
  | nestingTooDeep
  deriving Repr, DecidableEq

def Fault.message : Fault → String
  | expectedParenthesis => "Expected ')'"
  | expectedBrace => "Expected '\x7d'"
  | nestingTooDeep => "Nesting too deep"

/-- A fault and the byte offset where it was noticed. -/
structure Problem where
  fault : Fault
  offset : Nat
  deriving Repr, DecidableEq

namespace Document

/-- At most this many blocks are open at a time. -/
def depthLimit : Nat := 256

/-- What follows the block that the tokens start in, `depth` braces being
open before it; nothing follows a block that is never closed. -/
def skipBlock (depth : Nat) : List Token → List Token
  | [] => []
  | t :: rest =>
    if t.isPunct '{' then skipBlock (depth + 1) rest
    else if t.isPunct '}' then
      if depth ≤ 1 then rest else skipBlock (depth - 1) rest
    else skipBlock depth rest

theorem length_skipBlock_le (depth : Nat) (ts : List Token) :
    (skipBlock depth ts).length ≤ ts.length := by
  fun_induction skipBlock depth ts <;> simp_all <;> omega

/-- One thing that the reading notes down. -/
inductive Mark
  /-- A property of the innermost open node. -/
  | property (p : Property) (call : CallSite)
  /-- A node that is complete with its call. -/
  | leaf (kind : NodeKind) (call : CallSite)
  /-- A node that is open from here on. -/
  | opening (kind : NodeKind) (call : CallSite)
  /-- The end of the innermost open node; the root stays open. -/
  | closing
  /-- Something is wrong here. -/
  | problem (p : Problem)
  deriving Repr, DecidableEq

namespace Mark

/-- The mark of an argument list without an end. -/
def ofArguments (sourceEnd : Nat) (call : CallSite) : List Mark :=
  if call.closing.isNone then [problem ⟨.expectedParenthesis, sourceEnd⟩] else []

/-- The marks of tokens that stand inside `depth` open blocks. -/
def ofTokens (sourceEnd depth : Nat) (ts : List Token) : List Mark :=
  match _h : CallSite.read? ts with
  | some (call, rest) =>
    ofArguments sourceEnd call ++
      match Call.resolve call.name with
      | .property p => property p call :: ofTokens sourceEnd depth rest
      | meaning =>
        match _hb : openBlock? rest with
        | some (brace, inner) =>
          if depthLimit ≤ depth then
            problem ⟨.nestingTooDeep, brace.start⟩ :: leaf meaning.nodeKind call ::
              ofTokens sourceEnd depth (skipBlock 1 inner)
          else opening meaning.nodeKind call :: ofTokens sourceEnd (depth + 1) inner
        | none => leaf meaning.nodeKind call :: ofTokens sourceEnd depth rest
  | none =>
    match ts with
    | [] => List.replicate depth (problem ⟨.expectedBrace, sourceEnd⟩)
    | t :: rest =>
      if t.isPunct '}' then closing :: ofTokens sourceEnd (depth - 1) rest
      else ofTokens sourceEnd depth rest
termination_by ts.length
decreasing_by
  · exact CallSite.length_read?_lt _h
  · have hlt := CallSite.length_read?_lt _h
    have hin := length_openBlock?_lt _hb
    have hle := length_skipBlock_le 1 inner
    omega
  · exact Nat.lt_trans (length_openBlock?_lt _hb) (CallSite.length_read?_lt _h)
  · exact CallSite.length_read?_lt _h
  · simp
  · simp

def problem? : Mark → Option Problem
  | problem p => some p
  | _ => none

end Mark

end Document

end PagePreview
