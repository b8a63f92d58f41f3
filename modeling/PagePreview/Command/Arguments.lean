/-
PagePreview.Command.Arguments — the arguments of the command line.

The first argument names a command; the others are options with values,
and operands. The value of an option follows it, either as an argument of
its own or after an equals sign. After `--` there are only operands.

* `Command` — what can be asked for.
* `Command.ofArguments` — the command that arguments ask for, or why they
  ask for none.
-/
import PagePreview.Text.Split

namespace PagePreview

/-- What the program is asked to do. -/
inductive Command
  /-- Render a description, to a file or to the standard output. -/
  | render (file : String) (bootstrap runtimeSrc output : Option String)
  /-- Report the diagnostics of a description. -/
  | check (file : String) (handlers keys : List String)
  /-- Send requests to a simulated backend. -/
  | simulate (bootstrap : String) (requests : List String)
  deriving Repr, DecidableEq

/-- Why arguments ask for no command. -/
inductive ArgumentFault
  /-- They ask how the program is used. -/
  | helpRequested
  /-- They are not a use of the program. -/
  | wrongUsage
  deriving Repr, DecidableEq

/-- What values one place of a command line takes. -/
structure ValueRule where
  /-- Whether there may be more than one value. -/
  repeatable : Bool
  /-- Whether a value may be empty. -/
  allowsEmpty : Bool
  deriving Repr, DecidableEq

/-- Whether one more value is taken, `taken` telling whether there is one
already. -/
def ValueRule.accepts (rule : ValueRule) (taken : Bool) (value : String) : Bool :=
  (rule.repeatable || !taken) && (rule.allowsEmpty || value != "")

/-- An option of a command. Every option has a value. -/
structure OptionSpec where
  name : String
  letter : Option Char
  rule : ValueRule
  deriving Repr, DecidableEq

/-- What a command takes after its name. -/
structure CommandSpec where
  options : List OptionSpec
  operands : ValueRule
  deriving Repr, DecidableEq

/-- Arguments taken apart: the values of options with the names of the
options, and the operands, each in order. -/
structure CommandLine where
  options : List (String × String)
  operands : List String
  deriving Repr, DecidableEq

namespace CommandLine

def none : CommandLine := ⟨[], []⟩

def values (line : CommandLine) (name : String) : List String :=
  (line.options.filter (·.1 == name)).map (·.2)

def value? (line : CommandLine) (name : String) : Option String :=
  line.options.lookup name

def addOption (line : CommandLine) (spec : OptionSpec) (value : String) :
    Except ArgumentFault CommandLine :=
  if spec.rule.accepts (!(line.values spec.name).isEmpty) value then
    .ok { line with options := line.options ++ [(spec.name, value)] }
  else .error .wrongUsage

def addOperand (rule : ValueRule) (line : CommandLine) (value : String) :
    Except ArgumentFault CommandLine :=
  if rule.accepts (!line.operands.isEmpty) value then
    .ok { line with operands := line.operands ++ [value] }
  else .error .wrongUsage

end CommandLine

namespace OptionSpec

/-- What an argument is. -/
inductive Shape
  /-- `--` -/
  | terminator
  /-- `--name` or `--name=value` -/
  | long (name : List Char) (value : Option (List Char))
  /-- `-x`, `-xvalue` or `-x=value` -/
  | short (letter : Char) (value : Option (List Char))
  /-- Anything else, `-` alone included. -/
  | plain

def shape : List Char → Shape
  | ['-', '-'] => .terminator
  | '-' :: '-' :: rest =>
    let (name, value) := splitFirst '=' rest
    .long name value
  | ['-', letter] => .short letter none
  | '-' :: letter :: '=' :: value => .short letter (some value)
  | '-' :: letter :: value => .short letter (some value)
  | _ => .plain

/-- Whether an argument cannot be the value of an option before it. -/
def isMarked (arg : String) : Bool :=
  match shape arg.toList with
  | .plain => false
  | _ => true

/-- The option that a shape names, and the value it comes with. -/
def ofShape? (specs : List OptionSpec) : Shape → Option (OptionSpec × Option (List Char))
  | .long name value => (specs.find? (·.name.toList == name)).map (·, value)
  | .short letter value => (specs.find? (·.letter == some letter)).map (·, value)
  | _ => none

/-- Whether a shape asks for help. -/
def asksForHelp : Shape → Bool
  | .long name none => name == "help".toList
  | .short letter _ => letter == 'h'
  | _ => false

end OptionSpec

/-- Takes the arguments after some that were taken apart before. They are
taken in order, and the first that is wrong or asks for help decides. -/
def CommandSpec.takeApart (spec : CommandSpec) (line : CommandLine) :
    List String → Except ArgumentFault CommandLine
  | [] => .ok line
  | arg :: rest =>
    match OptionSpec.shape arg.toList with
    | .terminator => rest.foldlM (CommandLine.addOperand spec.operands) line
    | .plain => do
      let line ← line.addOperand spec.operands arg
      spec.takeApart line rest
    | shape =>
      if OptionSpec.asksForHelp shape then .error .helpRequested
      else match OptionSpec.ofShape? spec.options shape, rest with
        | some (option, some value), rest => do
          let line ← line.addOption option (String.ofList value)
          spec.takeApart line rest
        | some (option, none), value :: rest =>
          if OptionSpec.isMarked value then .error .wrongUsage
          else do
            let line ← line.addOption option value
            spec.takeApart line rest
        | _, _ => .error .wrongUsage

namespace Command

def oneFile : ValueRule := ⟨false, false⟩

def anyTexts : ValueRule := ⟨true, true⟩

def renderSpec : CommandSpec where
  options :=
    [⟨"bootstrap", none, oneFile⟩, ⟨"runtime-src", none, ⟨false, true⟩⟩,
     ⟨"output", some 'o', oneFile⟩]
  operands := oneFile

def checkSpec : CommandSpec where
  options := [⟨"handler", none, anyTexts⟩, ⟨"key", none, anyTexts⟩]
  operands := oneFile

def simulateSpec : CommandSpec where
  options := [⟨"bootstrap", none, oneFile⟩]
  operands := anyTexts

def names : List String :=
  ["render", "check", "simulate", "help"]

/-- A command that operands have to make up. -/
def require : Option Command → Except ArgumentFault Command
  | some c => .ok c
  | none => .error .wrongUsage

def ofArguments : List String → Except ArgumentFault Command
  | "render" :: rest => do
    let line ← renderSpec.takeApart .none rest
    require <| line.operands.head?.map fun file =>
      render file (line.value? "bootstrap") (line.value? "runtime-src") (line.value? "output")
  | "check" :: rest => do
    let line ← checkSpec.takeApart .none rest
    require <| line.operands.head?.map fun file =>
      check file (line.values "handler") (line.values "key")
  | "simulate" :: rest => do
    let line ← simulateSpec.takeApart .none rest
    require <| (line.value? "bootstrap").bind fun bootstrap =>
      if line.operands = [] then none else some (simulate bootstrap line.operands)
  | ["help"] => .error .helpRequested
  | ["help", topic] => .error (if topic ∈ names then .helpRequested else .wrongUsage)
  | arg :: _ =>
    if OptionSpec.asksForHelp (OptionSpec.shape arg.toList) then .error .helpRequested
    else .error .wrongUsage
  | [] => .error .wrongUsage

end Command

end PagePreview
