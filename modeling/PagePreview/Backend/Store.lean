/-
PagePreview.Backend.Store — the data of the simulated backend.

The backend holds texts under names. Values of any other kind are turned
into text when they come in, the way a page would show them.

* `Store` — the data, sorted by name.
* `Store.json` — the data as a JSON object.
* `Json.pageText` — a JSON value as text.
-/
import PagePreview.Json.Writer
import PagePreview.Table

namespace PagePreview

/-- Texts under names. -/
abbrev Store := Table String

def Store.toJson (s : Store) : Json :=
  .object (s.entries.map fun e => (e.1, .string e.2))

def Store.json (s : Store) : String :=
  s.toJson.text

namespace Json

/-- A number as a page shows it. Integers have all their digits. -/
def Number.pageText : Number → String
  | integer n => String.ofList (Notation.intText n)
  | double x => x.pageText

mutual

/-- A value as a page shows it: null is empty, items are separated by
commas, and the content of an object is not shown. -/
def pageText : Json → String
  | null => ""
  | bool true => "true"
  | bool false => "false"
  | number n => n.pageText
  | string s => s
  | array items => pageTextList items
  | object _ => "[object Object]"

def pageTextList : List Json → String
  | [] => ""
  | [v] => pageText v
  | v :: rest => pageText v ++ "," ++ pageTextList rest

end

end Json

end PagePreview
