/-
PagePreview.Main — the program.

    pagepreview render FILE [--bootstrap FILE] [--runtime-src URL] [-o FILE]
    pagepreview check FILE [--handler NAME]… [--key NAME]…
    pagepreview simulate --bootstrap FILE REQUEST…
-/
import PagePreview.Command.Run

namespace PagePreview

def usage : String :=
  "\n".intercalate
    ["render FILE [--bootstrap FILE] [--runtime-src URL] [-o FILE]",
     "check FILE [--handler NAME]... [--key NAME]...",
     "simulate --bootstrap FILE REQUEST..."]

/-- The files of the machine that the program runs on. -/
def machineFiles : Files IO where
  read path := do
    try pure (some (← IO.FS.readFile path))
    catch _ => pure none
  write path text := do
    try
      IO.FS.writeFile path text
      pure true
    catch _ => pure false

end PagePreview

open PagePreview in
def main (args : List String) : IO UInt32 := do
  match Command.ofArguments args with
  | .error .helpRequested =>
    IO.println usage
    pure (UInt32.ofNat (ArgumentFault.exitCode .helpRequested))
  | .error .wrongUsage =>
    IO.eprintln usage
    pure (UInt32.ofNat (ArgumentFault.exitCode .wrongUsage))
  | .ok command =>
    let outcome ← command.run machineFiles
    IO.print outcome.output
    match outcome.failure with
    | some failure => IO.eprintln ("Error: " ++ failure.message)
    | none => pure ()
    pure (UInt32.ofNat outcome.exitCode)
