/-
PagePreview.Node.Json — document trees as JSON.

A node is a record of its kind, its texts and its children. Texts that
are absent are left out when it is written, and may be left out or null
when it is read; the children are always written and may be left out.

* `Node.toJson` — the record of a node.
* `Node.ofWritten?` — the node of a record. Every level of nodes takes two
  levels of nesting, one for the node and one for its children.
-/
import PagePreview.Json.Written
import PagePreview.Json.Writer
import PagePreview.Node

namespace PagePreview

namespace Node

def fieldNames : List String :=
  ["type", "label", "style", "bind", "onClick", "children"]

def textMember (name : String) : Option String → List (String × Json)
  | none => []
  | some s => [(name, .string s)]

/-- The members that describe a node itself. -/
def ownMembers (n : Node) : List (String × Json) :=
  ("type", .string n.kind.name) ::
    (textMember "label" n.label ++ textMember "style" n.style ++
      textMember "bind" n.bind ++ textMember "onClick" n.onClick)

mutual

def toJson : Node → Json
  | ⟨kind, label, style, bind, onClick, children⟩ =>
    .object (ownMembers ⟨kind, label, style, bind, onClick, []⟩ ++
      [("children", .array (toJsonList children))])

def toJsonList : List Node → List Json
  | [] => []
  | n :: rest => toJson n :: toJsonList rest

end

/-- A kind, given by its name. The name may also stand as the only member
of an object, with null as its value. -/
def kind? (levels : Nat) : Json.Written → Option NodeKind
  | .string s => s.bind NodeKind.ofName?
  | .object [(name, .null)] => if 0 < levels then name.bind NodeKind.ofName? else none
  | _ => none

/-- The children of a node: an array, which may be left out, of items that
are read all together. -/
def children? (readAll? : List Json.Written → Option (List Node)) :
    Option Json.Written → Option (List Node)
  | none => some []
  | some (.array items) => readAll? items
  | _ => none

/-- The node of a record with so many levels of nesting left below it, whose
children are read by the given function. -/
def ofRecord? (levels : Nat) (readAll? : List Json.Written → Option (List Node))
    (w : Json.Written) : Option Node := do
  let fields ← w.record? fieldNames
  let kind ← (fields.lookup "type").bind (kind? levels)
  let label ← Json.Written.optionalText? (fields.lookup "label")
  let style ← Json.Written.optionalText? (fields.lookup "style")
  let bind ← Json.Written.optionalText? (fields.lookup "bind")
  let onClick ← Json.Written.optionalText? (fields.lookup "onClick")
  let children ← children? readAll? (fields.lookup "children")
  some ⟨kind, label, style, bind, onClick, children⟩

/-- The node of a record, within a number of levels of nesting. On the last
level there can be no array of children. -/
def ofWritten? : Nat → Json.Written → Option Node
  | 0, _ => none
  | 1, w => ofRecord? 0 (fun _ => none) w
  | levels + 2, w => ofRecord? (levels + 1) (·.mapM (ofWritten? levels)) w

def parse? (text : String) : Option Node :=
  (Json.Written.parse? text).bind (ofWritten? Json.depthLimit)

end Node

end PagePreview
