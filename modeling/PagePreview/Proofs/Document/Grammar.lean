/-
PagePreview.Proofs.Document.Grammar — the grammar of page descriptions,
and the document that a derivation stands for.

A document is a list of calls. A property call is the name of a property
with its arguments. Every other call is an element, which may have a block
of calls. A semicolon may stand behind every call. Arguments are tokens
other than a closing parenthesis and braces.

The derivations are trees whose leaves are the tokens, so the tokens that a
derivation derives are read off it (`CallTree.written`). What a derivation
denotes is said without any reading:

* `CallTree.lastValue?` — the value a property has after the calls of a
  block: that of the last call that has one.
* `CallTree.nodes` — the nodes of the calls of a block, in order.
* `CallTree.tooDeep` — the blocks that nest too deep, in order. They count
  for nothing: neither their nodes nor their properties are there.
* `CallTree.document` — the root of the document.
-/
import Mathlib
import PagePreview.Node
import PagePreview.Source.CallSite

namespace PagePreview

/-! ## Derivations -/

def Token.isArgument (t : Token) : Bool :=
  !t.isPunct ')' && !t.isPunct '{' && !t.isPunct '}'

/-- A name and its arguments between parentheses. -/
structure CallHead where
  name : String
  nameSpan : Span
  openParenthesis : Span
  arguments : List Token
  closeParenthesis : Span
  isArgument : ∀ t ∈ arguments, t.isArgument = true

/-- A derivation of one call. The spans are those of the punctuation it is
written with. -/
inductive CallTree
  /-- A call that gives a property. -/
  | property (p : Property) (head : CallHead) (named : head.name = p.callName)
    (semicolon : Option Span)
  /-- An element without a block. -/
  | leaf (head : CallHead) (unnamed : ∀ p : Property, head.name ≠ p.callName)
    (semicolon : Option Span)
  /-- An element with a block of calls. -/
  | block (head : CallHead) (unnamed : ∀ p : Property, head.name ≠ p.callName)
    (openBrace : Span) (content : List CallTree) (closeBrace : Span)
    (semicolon : Option Span)

/-- The tokens from the name to the closing parenthesis. -/
def CallHead.written (h : CallHead) : List Token :=
  ⟨.ident h.name, h.nameSpan⟩ :: ⟨.punct '(', h.openParenthesis⟩ ::
    (h.arguments ++ [⟨.punct ')', h.closeParenthesis⟩])

def writtenSemicolon (semicolon : Option Span) : List Token :=
  (semicolon.map (Token.mk (.punct ';'))).toList

namespace CallTree

mutual

def written : CallTree → List Token
  | property _ head _ semicolon => head.written ++ writtenSemicolon semicolon
  | leaf head _ semicolon => head.written ++ writtenSemicolon semicolon
  | block head _ openBrace content closeBrace semicolon =>
    head.written ++ ⟨.punct '{', openBrace⟩ ::
      (writtenAll content ++ ⟨.punct '}', closeBrace⟩ :: writtenSemicolon semicolon)

def writtenAll : List CallTree → List Token
  | [] => []
  | call :: rest => written call ++ writtenAll rest

end

end CallTree

/-- The calls are a derivation of the tokens. -/
def Derives (calls : List CallTree) (ts : List Token) : Prop :=
  CallTree.writtenAll calls = ts

/-! ## What a derivation denotes -/

def CallHead.kind (h : CallHead) : NodeKind :=
  (Call.resolve h.name).nodeKind

/-- The first argument that is not a comma, if it is a string that is not
empty. -/
def CallHead.value? (h : CallHead) : Option String :=
  nonEmpty? ((h.arguments.filter (!·.isPunct ',')).head?.bind (·.text?))

namespace CallTree

/-- The value that a call gives to a property. -/
def value? (p : Property) : CallTree → Option String
  | property q head _ _ => if q = p then head.value? else none
  | _ => none

/-- The last value that calls give to a property. -/
def lastValue? (p : Property) (calls : List CallTree) : Option String :=
  (calls.filterMap (value? p)).getLast?

mutual

/-- The node of a call that stands inside `depth` open blocks. At most 256
blocks are open at a time: the node of a call whose block would be one more
is without children and properties. -/
def node? (depth : Nat) : CallTree → Option Node
  | property .. => none
  | leaf head _ _ => some { Node.bare head.kind with label := head.value? }
  | block head _ _ content _ _ =>
    if depth < 256 then
      some
        { kind := head.kind
          label := head.value?
          style := lastValue? .css content
          bind := lastValue? .bind content
          onClick := lastValue? .onClick content
          children := nodes (depth + 1) content }
    else some { Node.bare head.kind with label := head.value? }

def nodes (depth : Nat) : List CallTree → List Node
  | [] => []
  | call :: rest => (node? depth call).toList ++ nodes depth rest

end

mutual

/-- The opening braces of the blocks in a call that are one too many. What
such a block holds is not looked at. -/
def tooDeep (depth : Nat) : CallTree → List Span
  | property .. => []
  | leaf .. => []
  | block _ _ openBrace content _ _ =>
    if depth < 256 then tooDeepAll (depth + 1) content else [openBrace]

def tooDeepAll (depth : Nat) : List CallTree → List Span
  | [] => []
  | call :: rest => tooDeep depth call ++ tooDeepAll depth rest

end

/-- The root of a document: a container that has the properties and nodes
of the calls. -/
def document (calls : List CallTree) : Node where
  kind := .container
  label := none
  style := lastValue? .css calls
  bind := lastValue? .bind calls
  onClick := lastValue? .onClick calls
  children := nodes 0 calls

end CallTree

end PagePreview
