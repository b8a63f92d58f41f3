/-
PagePreview.Json.Writer — values as JSON text.

The text has no blanks. Members are written in the order in which the
object has them.
-/
import PagePreview.Json.Basic
import PagePreview.Number.Notation

namespace PagePreview

namespace Json

/-- A hexadecimal digit, in lower case. -/
def hexDigit (n : Nat) : Char :=
  if n < 10 then Char.ofNat (48 + n) else Char.ofNat (87 + n)

/-- A character inside of a string. Quotes, backslashes and control
characters are escaped, the latter by a short escape if there is one. -/
def escapeChar (c : Char) : List Char :=
  if c = '"' then ['\\', '"']
  else if c = '\\' then ['\\', '\\']
  else if c = '\x08' then ['\\', 'b']
  else if c = '\x0c' then ['\\', 'f']
  else if c = '\n' then ['\\', 'n']
  else if c = '\r' then ['\\', 'r']
  else if c = '\t' then ['\\', 't']
  else if c.toNat < 0x20 then
    ['\\', 'u', '0', '0', hexDigit (c.toNat / 16), hexDigit (c.toNat % 16)]
  else [c]

/-- A text as a JSON string. -/
def quoted (s : String) : List Char :=
  '"' :: (s.toList.flatMap escapeChar ++ ['"'])

/-- A number as JSON text. What is not finite has no such text, and is
written as null. -/
def Number.write : Number → List Char
  | integer n => Notation.intText n
  | double (.finite negative m e _) => Notation.json.finite negative m e
  | double _ => "null".toList

mutual

/-- A value as JSON text. -/
def write : Json → List Char
  | null => "null".toList
  | bool true => "true".toList
  | bool false => "false".toList
  | number n => n.write
  | string s => quoted s
  | array items => '[' :: (writeItems items ++ [']'])
  | object members => '{' :: (writeMembers members ++ ['}'])

/-- Items, separated by commas. -/
def writeItems : List Json → List Char
  | [] => []
  | [v] => write v
  | v :: rest => write v ++ ',' :: writeItems rest

/-- Members, separated by commas. -/
def writeMembers : List (String × Json) → List Char
  | [] => []
  | [(name, v)] => quoted name ++ ':' :: write v
  | (name, v) :: rest => quoted name ++ ':' :: (write v ++ ',' :: writeMembers rest)

end

/-- A value as JSON text. -/
def text (v : Json) : String :=
  String.ofList v.write

end Json

end PagePreview
