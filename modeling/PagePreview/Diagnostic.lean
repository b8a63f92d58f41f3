/-
PagePreview.Diagnostic — what an author is told about a description.

* `Finding` — the seven things that can be reported, each with its
  wording (`Finding.message`) and severity.
* `lint source symbols` — the diagnostics of a source: the brace balance,
  then unknown calls, then property calls, each in source order.
-/
import PagePreview.Analysis
import PagePreview.Symbols

namespace PagePreview

/-- How grave a diagnostic is. -/
inductive Severity
  | error
  | warning
  deriving Repr, DecidableEq

def Severity.name : Severity → String
  | error => "error"
  | warning => "warning"

/-- Something worth reporting. -/
inductive Finding
  | missingBrace
  | extraBrace
  | unknownCall (name : String)
  | handlerOutsideButton
  | unknownHandler (name : String)
  | bindOutsideBindable
  | unknownKey (name : String)
  deriving Repr, DecidableEq

namespace Finding

/-- Only an unbalanced description is an error. -/
def severity : Finding → Severity
  | missingBrace | extraBrace => .error
  | _ => .warning

def message : Finding → String
  | missingBrace => "Missing closing brace(s)"
  | extraBrace => "Extra closing brace(s)"
  | unknownCall name => "Unknown WebCee call: " ++ name
  | handlerOutsideButton => "wce_on_click() should be used inside wce_button() block"
  | unknownHandler name => "on_click handler not found in C project: " ++ name
  | bindOutsideBindable =>
    "wce_bind() should be used inside a bindable component (text, input, slider, progress)"
  | unknownKey name => "bind key not found in C project: " ++ name

end Finding

/-- A finding and the range of the source it is about. -/
structure Diagnostic where
  finding : Finding
  span : Span
  deriving Repr, DecidableEq

namespace Diagnostic

def ofBalance (sourceEnd : Nat) (balance : Int) : List Diagnostic :=
  let start : Span := Span.clamp sourceEnd ⟨0, 1⟩
  if 0 < balance then [⟨.missingBrace, start⟩]
  else if balance < 0 then [⟨.extraBrace, start⟩]
  else []

/-- The report on a name that has to be among the known ones. An absent or
empty name is not checked, nor is any name while none is known. -/
def ofName (known : List String) (finding : String → Finding) (span : Span) :
    Option String → List Diagnostic
  | none => []
  | some name => if name ≠ "" ∧ known ≠ [] ∧ name ∉ known then [⟨finding name, span⟩] else []

/-- The report on where a property call stands. -/
def ofPlacement (allowed : Bool) (finding : Finding) (span : Span) : List Diagnostic :=
  if allowed then [] else [⟨finding, span⟩]

def ofUsage (sourceEnd : Nat) (symbols : ProjectSymbols) (u : PropertyUsage) :
    List Diagnostic :=
  let callSpan := u.callSpan.clamp sourceEnd
  let valueSpan := (u.value.map (·.2.clamp sourceEnd)).getD callSpan
  let value := u.value.map (·.1)
  match u.property with
  | .onClick =>
    ofPlacement (u.enclosing == .button) .handlerOutsideButton callSpan ++
      ofName symbols.eventHandlers .unknownHandler valueSpan value
  | .bind =>
    ofPlacement u.enclosing.isBindable .bindOutsideBindable callSpan ++
      ofName symbols.dataKeys .unknownKey valueSpan value
  | .css => []

end Diagnostic

def lint (source : String) (symbols : ProjectSymbols) : List Diagnostic :=
  let sourceEnd := source.utf8ByteSize
  let analysis := Analysis.ofSource source
  Diagnostic.ofBalance sourceEnd analysis.braceBalance ++
    analysis.unknownCalls.map (fun c => ⟨.unknownCall c.name, c.span.clamp sourceEnd⟩) ++
    analysis.properties.flatMap (Diagnostic.ofUsage sourceEnd symbols)

end PagePreview
