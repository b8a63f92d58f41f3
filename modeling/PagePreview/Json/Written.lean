/-
PagePreview.Json.Written — JSON texts as trees, before they mean anything.

Reading goes in two steps. The first, `Written.ofWords?`, only checks the
grammar: it yields a tree of what was written, with every member of every
object in the order of the text. It is a machine that takes one word at a
time and keeps the arrays and objects that are still open.

The second gives the tree a meaning. As a plain value (`value?`), of
members with one name the last counts, and nesting may be limited. As a record
(`record?`), only the named members count, each of which may be given
once, and the other members are not looked at; a record may also be
written as an array of its fields in their order.

* `Json.parse?` — the value of a text.
* `Json.Written.parse?` — the tree of a text.
-/
import PagePreview.Json.Word
import PagePreview.Table

namespace PagePreview

namespace Json

/-- Arrays and objects may be nested this deep. -/
def depthLimit : Nat := 127

/-- A JSON text as written. Strings and numbers without a value are kept. -/
inductive Written
  | null
  | bool (b : Bool)
  | number (n : Option Number)
  | string (s : Option String)
  | array (items : List Written)
  | object (members : List (Option String × Written))

namespace Written

/-! ## Grammar -/

/-- An array or object that is still open, with what it holds so far, the
latest first. An object waits for the value of a name. -/
inductive Frame
  | array (items : List Written)
  | object (members : List (Option String × Written)) (name : Option String)

/-- What may come next. -/
inductive State
  /-- A value. -/
  | value (outer : List Frame)
  /-- The first item of an array, or its end. -/
  | firstItem (outer : List Frame)
  /-- The first name of an object, or its end. -/
  | firstName (outer : List Frame)
  /-- A further name. -/
  | name (members : List (Option String × Written)) (outer : List Frame)
  /-- The colon after a name. -/
  | colon (members : List (Option String × Written)) (name : Option String) (outer : List Frame)
  /-- What follows a complete value. -/
  | done (v : Written) (outer : List Frame)

/-- Takes the first word of a value. -/
def startValue (outer : List Frame) : Word → Option State
  | .openArray => some (.firstItem outer)
  | .openObject => some (.firstName outer)
  | .null => some (.done .null outer)
  | .bool b => some (.done (.bool b) outer)
  | .number n => some (.done (.number n) outer)
  | .string s => some (.done (.string s) outer)
  | _ => none

/-- Takes one word. -/
def step : State → Word → Option State
  | .value outer, w => startValue outer w
  | .firstItem outer, .closeArray => some (.done (.array []) outer)
  | .firstItem outer, w => startValue (.array [] :: outer) w
  | .firstName outer, .closeObject => some (.done (.object []) outer)
  | .firstName outer, .string s => some (.colon [] s outer)
  | .name members outer, .string s => some (.colon members s outer)
  | .colon members s outer, .colon => some (.value (.object members s :: outer))
  | .done v (.array items :: outer), .comma => some (.value (.array (v :: items) :: outer))
  | .done v (.array items :: outer), .closeArray =>
    some (.done (.array (v :: items).reverse) outer)
  | .done v (.object members s :: outer), .comma => some (.name ((s, v) :: members) outer)
  | .done v (.object members s :: outer), .closeObject =>
    some (.done (.object ((s, v) :: members).reverse) outer)
  | _, _ => none

/-- The tree of a list of words, if they are one value. -/
def ofWords? (ws : List Word) : Option Written :=
  match ws.foldlM step (.value []) with
  | some (.done v []) => some v
  | _ => none

/-- The tree of a text. -/
def parse? (text : String) : Option Written :=
  (words? text.toList).bind ofWords?

/-! ## Values -/

mutual

/-- The value of a tree with at most `levels` arrays and objects around any
part of it. -/
def value? : Nat → Written → Option Json
  | _, null => some .null
  | _, bool b => some (.bool b)
  | _, number n => n.map .number
  | _, string s => s.map .string
  | 0, array _ => none
  | levels + 1, array items => (items? levels items).map .array
  | 0, object _ => none
  | levels + 1, object members =>
    (members? levels members).map fun ms => .object (Table.ofList ms).entries

/-- The values of items. -/
def items? : Nat → List Written → Option (List Json)
  | _, [] => some []
  | levels, v :: rest =>
    match value? levels v, items? levels rest with
    | some v, some rest => some (v :: rest)
    | _, _ => none

/-- The names and values of members. -/
def members? : Nat → List (Option String × Written) → Option (List (String × Json))
  | _, [] => some []
  | levels, (name, v) :: rest =>
    match name, value? levels v, members? levels rest with
    | some name, some v, some rest => some ((name, v) :: rest)
    | _, _, _ => none

end

mutual

/-- How deep arrays and objects are nested in a tree. -/
def depth : Written → Nat
  | array items => itemsDepth items + 1
  | object members => membersDepth members + 1
  | _ => 0

def itemsDepth : List Written → Nat
  | [] => 0
  | v :: rest => max (depth v) (itemsDepth rest)

def membersDepth : List (Option String × Written) → Nat
  | [] => 0
  | (_, v) :: rest => max (depth v) (membersDepth rest)

end

/-- The value of a tree that may be nested as deep as it is. -/
def wholeValue? (w : Written) : Option Json :=
  value? w.depth w

mutual

/-- A value as a tree. -/
def ofValue : Json → Written
  | .null => null
  | .bool b => bool b
  | .number n => number (some n)
  | .string s => string (some s)
  | .array items => array (ofItems items)
  | .object members => object (ofMembers members)

/-- Items as trees. -/
def ofItems : List Json → List Written
  | [] => []
  | v :: rest => ofValue v :: ofItems rest

/-- Members as trees. -/
def ofMembers : List (String × Json) → List (Option String × Written)
  | [] => []
  | (name, v) :: rest => (some name, ofValue v) :: ofMembers rest

end

/-! ## Records -/

/-- The members of an object that have one of the names. Every name has to
be a text, and none of the given names may occur twice. -/
def known? (names : List String) (members : List (Option String × Written)) :
    Option (List (String × Written)) := do
  let named ← members.mapM fun m => m.1.map (·, m.2)
  let known := named.filter (·.1 ∈ names)
  if (known.map (·.1)).Nodup then some known else none

/-- The fields of a record, written as an object or as an array of the
fields in order, of which the last may be left out. -/
def record? (names : List String) : Written → Option (List (String × Written))
  | object members => known? names members
  | array items => if items.length ≤ names.length then some (names.zip items) else none
  | _ => none

/-- A field that is a text, may be null and may be left out. -/
def optionalText? : Option Written → Option (Option String)
  | none => some none
  | some null => some none
  | some (string (some s)) => some (some s)
  | _ => none

/-- A tree that is a text. -/
def text? : Written → Option String
  | string s => s
  | _ => none

/-- A field that is an array of texts and may be left out. -/
def optionalTexts? : Option Written → Option (List String)
  | none => some []
  | some (array items) => items.mapM text?
  | _ => none

end Written

/-- The value of a text. -/
def parse? (text : String) : Option Json :=
  (Written.parse? text).bind (Written.value? depthLimit)

end Json

end PagePreview
