/-
PagePreview.Analysis — the calls of a page description, for authoring
diagnostics.

The analysis stands beside the reading of the document. It notes down the
calls and the braces between them, and finds from these in which block each
property call stands, so that a diagnostic can point at it even where the
tree would come out misshapen:

* a block after a call other than a property has the kind of that call;
* any other block has the kind of the block around it;
* a closing brace too many leaves the root open.

* `Analysis.Mark.ofTokens` — the calls and braces of a token list.
* `Analysis.Mark.enclose` — what a mark does to the enclosing blocks.
* `Analysis.ofMarks` — what is found among the marks.
-/
import PagePreview.Source.CallSite
import PagePreview.Source.Lexer
import PagePreview.Vocabulary

namespace PagePreview

/-- A property call as it stands in the source. -/
structure PropertyUsage where
  property : Property
  /-- The first string among the arguments, and where it stands. -/
  value : Option (String × Span)
  callSpan : Span
  /-- The kind of the block around the call. -/
  enclosing : NodeKind
  deriving Repr, DecidableEq

/-- A call with the start of the vocabulary that is not in it. -/
structure UnknownCall where
  name : String
  span : Span
  deriving Repr, DecidableEq

/-- What the analysis found, each list in source order. -/
structure Analysis where
  properties : List PropertyUsage
  unknownCalls : List UnknownCall
  /-- Opening braces less closing braces. -/
  braceBalance : Int
  deriving Repr, DecidableEq

namespace Analysis

/-- A call, or a brace outside every argument list. -/
inductive Mark
  /-- A property call. -/
  | property (p : Property) (call : CallSite)
  /-- Any other call. -/
  | element (call : CallSite)
  /-- An opening brace, with the kind of the call that it follows. -/
  | opening (owner : Option NodeKind)
  /-- A closing brace. -/
  | closing
  deriving Repr, DecidableEq

namespace Mark

/-- The calls and braces of a token list. -/
def ofTokens (ts : List Token) : List Mark :=
  match _h : CallSite.read? ts with
  | some (call, rest) =>
    match Call.resolve call.name with
    | .property p => property p call :: ofTokens rest
    | meaning =>
      element call ::
        match _hb : openBlock? rest with
        | some (_, inner) => opening (some meaning.nodeKind) :: ofTokens inner
        | none => ofTokens rest
  | none =>
    match ts with
    | [] => []
    | t :: rest =>
      if t.isPunct '{' then opening none :: ofTokens rest
      else if t.isPunct '}' then closing :: ofTokens rest
      else ofTokens rest
termination_by ts.length
decreasing_by
  · exact CallSite.length_read?_lt _h
  · exact Nat.lt_trans (length_openBlock?_lt _hb) (CallSite.length_read?_lt _h)
  · exact CallSite.length_read?_lt _h
  · simp
  · simp
  · simp

/-- The kind of the innermost of the blocks, which are given from the
inside out; outside every block it is the root's. -/
def innermost (blocks : List NodeKind) : NodeKind :=
  blocks.headD .container

/-- The blocks around what follows a mark. -/
def enclose (blocks : List NodeKind) : Mark → List NodeKind
  | opening owner => owner.getD (innermost blocks) :: blocks
  | closing => blocks.tail
  | _ => blocks

/-- What a mark adds to the number of opening braces less closing braces. -/
def balance : Mark → Int
  | opening _ => 1
  | closing => -1
  | _ => 0

/-- The number of opening braces less closing braces among marks. -/
def totalBalance (marks : List Mark) : Int :=
  marks.foldr (fun m total => m.balance + total) 0

@[simp] theorem totalBalance_nil : totalBalance [] = 0 := rfl

@[simp] theorem totalBalance_cons (m : Mark) (marks : List Mark) :
    totalBalance (m :: marks) = m.balance + totalBalance marks := rfl

/-- The call of the mark, if it is one to be reported as unknown. -/
def unknownCall? (sourceEnd : Nat) : Mark → Option UnknownCall
  | element call =>
    if Call.resolve call.name = .unknown ∧ Call.vocabularyStart.toList <+: call.name.toList then
      some ⟨call.name, call.span sourceEnd⟩
    else none
  | _ => none

end Mark

def usages (sourceEnd : Nat) : List NodeKind → List Mark → List PropertyUsage
  | _, [] => []
  | blocks, .property p call :: rest =>
    ⟨p, call.firstText?, call.span sourceEnd, Mark.innermost blocks⟩ ::
      usages sourceEnd blocks rest
  | blocks, m :: rest => usages sourceEnd (m.enclose blocks) rest

def ofMarks (sourceEnd : Nat) (marks : List Mark) : Analysis where
  properties := usages sourceEnd [] marks
  unknownCalls := marks.filterMap (Mark.unknownCall? sourceEnd)
  braceBalance := Mark.totalBalance marks

def ofSource (source : String) : Analysis :=
  ofMarks source.utf8ByteSize (Mark.ofTokens (tokens source))

end Analysis

end PagePreview
