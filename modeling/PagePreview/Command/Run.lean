/-
PagePreview.Command.Run — what the commands do.

Commands read files and may write one; how that is done is left open, so
that a command can be followed on files that exist only in a test or in a
proof.

* `Files` — reading and writing.
* `Outcome` — what a command prints, and how it ends.
* `Command.run` — a command.
-/
import PagePreview.Command.Arguments
import PagePreview.Diagnostic
import PagePreview.Html.Page
import PagePreview.Backend.Session

namespace PagePreview

/-- Access to files that may fail. -/
structure Files (m : Type → Type) where
  /-- The text of a file. -/
  read : String → m (Option String)
  /-- Writes a file, and tells whether that worked. -/
  write : String → String → m Bool

/-- Why a command failed. -/
inductive Failure
  | unreadable (path : String)
  | badBootstrap
  | unwritable (path : String)
  | invalidRequest (line : String)
  deriving Repr, DecidableEq

def Failure.message : Failure → String
  | unreadable path => "failed to read " ++ path
  | badBootstrap => "failed to load simulation bootstrap"
  | unwritable path => "failed to write " ++ path
  | invalidRequest line => Request.invalidLine line

/-- What a command printed, why it failed if it did, and whether it found
the description to be in error. -/
structure Outcome where
  output : String
  failure : Option Failure
  foundErrors : Bool
  deriving Repr, DecidableEq

namespace Outcome

def success (output : String) : Outcome := ⟨output, none, false⟩

/-- A command that failed before it printed anything. -/
def failed (f : Failure) : Outcome := ⟨"", some f, false⟩

/-- The exit status: zero if the command worked and found no errors. -/
def exitCode (o : Outcome) : Nat :=
  if o.failure.isSome || o.foundErrors then 1 else 0

end Outcome

/-- The exit status of arguments that ask for no command. -/
def ArgumentFault.exitCode : ArgumentFault → Nat
  | helpRequested => 0
  | wrongUsage => 2

namespace Command

def printed (ls : List String) : String :=
  String.join (ls.map (· ++ "\n"))

/-- A diagnostic as a line; lines and columns are counted from one. -/
def diagnosticLine (file source : String) (d : Diagnostic) : String :=
  let p := Position.ofOffset source d.span.start
  String.intercalate ":"
    [file, Notation.natString (p.line + 1), Notation.natString (p.column + 1),
     " " ++ d.finding.severity.name, " " ++ d.finding.message]

/-- What `check` finds in a source. -/
def checkSource (file source : String) (symbols : ProjectSymbols) : Outcome :=
  let diagnostics := lint source symbols
  ⟨printed (diagnostics.map (diagnosticLine file source)), none,
    diagnostics.any (·.finding.severity == .error)⟩

def answerLine (r : Request) (answer : Option Answer) : String :=
  r.method ++ " " ++ r.path ++ " -> " ++
    match answer with
    | some a => Notation.natString a.response.status ++ " " ++ a.response.body
    | none => "not handled"

/-- The lines of requests that are sent one after the other, up to the
first line that is none. -/
def answerLines (s : Session) : List String → List String × Option Failure
  | [] => ([], none)
  | line :: rest =>
    match Request.ofLine? line with
    | none => ([], some (.invalidRequest line))
    | some r =>
      let step := s.dispatch r
      let (ls, failure) := answerLines step.state rest
      (answerLine r step.result :: ls, failure)

variable {m : Type → Type} [Monad m]

def loadBootstrap (files : Files m) (path : String) : m (Option Bootstrap) := do
  let text ← files.read path
  pure ((text.bind Bootstrap.parse?).map (·.1))

/-- The configuration in a file, if a file is given; the outer option tells
whether it could be read. -/
def loadOptional (files : Files m) : Option String → m (Option (Option Bootstrap))
  | none => pure (some none)
  | some path => do
    let b ← loadBootstrap files path
    pure (b.map some)

def deliver (files : Files m) (html : String) : Option String → m Outcome
  | none => pure (.success (printed [html]))
  | some path => do
    let written ← files.write path html
    pure (if written then .success "" else .failed (.unwritable path))

def run (files : Files m) : Command → m Outcome
  | render file bootstrap runtimeSrc output => do
    match ← files.read file with
    | none => pure (.failed (.unreadable file))
    | some source =>
      match ← loadOptional files bootstrap with
      | none => pure (.failed .badBootstrap)
      | some b => deliver files (Html.render source ⟨runtimeSrc, b⟩).html output
  | check file handlers keys => do
    match ← files.read file with
    | none => pure (.failed (.unreadable file))
    | some source => pure (checkSource file source ⟨handlers, keys⟩)
  | simulate bootstrap requests => do
    match ← loadBootstrap files bootstrap with
    | none => pure (.failed .badBootstrap)
    | some b =>
      let (ls, failure) := answerLines (.ofBootstrap b) requests
      pure ⟨printed ls, failure, false⟩

end Command

end PagePreview
