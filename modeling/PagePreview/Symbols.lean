/-
PagePreview.Symbols — the names that the project around a page defines.

A page refers to event handlers and data keys that are defined elsewhere.
As long as no names of a sort are known, references of that sort are not
checked.
-/
import PagePreview.Json.Written

namespace PagePreview

/-- The names that are known. -/
structure ProjectSymbols where
  eventHandlers : List String
  dataKeys : List String
  deriving Repr, DecidableEq

namespace ProjectSymbols

def none : ProjectSymbols := ⟨[], []⟩

def ofWritten? (w : Json.Written) : Option ProjectSymbols := do
  let fields ← w.record? ["eventHandlers", "dataKeys"]
  let eventHandlers ← Json.Written.optionalTexts? (fields.lookup "eventHandlers")
  let dataKeys ← Json.Written.optionalTexts? (fields.lookup "dataKeys")
  some ⟨eventHandlers, dataKeys⟩

def parse? (text : String) : Option ProjectSymbols :=
  (Json.Written.parse? text).bind ofWritten?

end ProjectSymbols

end PagePreview
