/-
PagePreview.Json.Basic — JSON values.

Members of an object are kept in an order. A value that was read has them
sorted by name, each name once; a value that is about to be written has
them in the order in which they are to appear.
-/
import PagePreview.Number.Rounding

namespace PagePreview

/-- A number: an integer of sixty-four bits, or a double. The two stay
apart, as they are written differently. -/
inductive Json.Number
  | integer (n : Int)
  | double (x : Double)
  deriving DecidableEq

inductive Json
  | null
  | bool (b : Bool)
  | number (n : Json.Number)
  | string (s : String)
  | array (items : List Json)
  | object (members : List (String × Json))

namespace Json

def Number.toDouble : Number → Double
  | integer n => Double.ofInt n
  | double x => x

def members? : Json → Option (List (String × Json))
  | object members => some members
  | _ => none

def member? (v : Json) (name : String) : Option Json :=
  v.members?.bind (·.lookup name)

def text? : Json → Option String
  | string s => some s
  | _ => none

def bool? : Json → Option Bool
  | bool b => some b
  | _ => none

def number? : Json → Option Number
  | number n => some n
  | _ => none

end Json

end PagePreview
