/-
PagePreview.Text.Escape — texts inside of other texts.

Each escape is given by what it does to one character, so it is one pass
over the text, and nothing that it produces is escaped again.

* `escapeHtml` — for the content of an element.
* `escapeAttribute` — for an attribute value between double quotes.
* `escapeScript` — for a script literal between single quotes.
-/

namespace PagePreview

def htmlChar (c : Char) : List Char :=
  if c = '&' then "&amp;".toList
  else if c = '<' then "&lt;".toList
  else if c = '>' then "&gt;".toList
  else [c]

def attributeChar (c : Char) : List Char :=
  if c = '"' then "&quot;".toList else htmlChar c

def scriptChar (c : Char) : List Char :=
  if c = '\\' then ['\\', '\\']
  else if c = '\'' then ['\\', '\'']
  else [c]

/-- A text as the content of an element. -/
def escapeHtml (s : String) : String :=
  String.ofList (s.toList.flatMap htmlChar)

/-- A text as an attribute value, to stand between double quotes. -/
def escapeAttribute (s : String) : String :=
  String.ofList (s.toList.flatMap attributeChar)

/-- A text as a script literal, to stand between single quotes. -/
def escapeScript (s : String) : String :=
  String.ofList (s.toList.flatMap scriptChar)

end PagePreview
