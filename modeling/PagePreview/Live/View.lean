/-
PagePreview.Live.View — the elements of a page that follow the store.

* `BoundElement` — an element with the key of its value.
* `BoundElement.display` — how an element takes up a value: texts show it,
  fields show it unless the user is in them, and progress bars show it if
  it is a finite number.
* `View.ofDocument` — the bound elements of a document in order.
* `View.refresh` — shows the store; keys that it does not have change
  nothing.
-/
import PagePreview.Backend.Store
import PagePreview.Node
import PagePreview.Number.Numeral

namespace PagePreview

/-- How an element shows its value. -/
inductive ElementKind
  /-- As text. -/
  | text
  /-- In a field that the user can edit. -/
  | editable
  /-- As a progress bar. -/
  | progress
  deriving Repr, DecidableEq

def ElementKind.name : ElementKind → String
  | text => "text"
  | editable => "editable"
  | progress => "progress"

/-- An element that follows the value of a key. -/
structure BoundElement where
  key : String
  kind : ElementKind
  text : String
  value : String
  progress : Double
  /-- Whether the element is marked as still without a value. -/
  bindHint : Bool
  /-- Whether the user is in the element. -/
  focused : Bool
  deriving DecidableEq

namespace BoundElement

def fresh (key : String) (kind : ElementKind) : BoundElement :=
  ⟨key, kind, "", "", .zero false, false, false⟩

def display (e : BoundElement) (value : String) : BoundElement :=
  match e.kind with
  | .text => { e with text := value, bindHint := false }
  | .editable => if e.focused then e else { e with value := value }
  | .progress =>
    let n := Double.ofPageText value
    if n.isFinite then { e with progress := n } else e

def refresh (s : Store) (e : BoundElement) : BoundElement :=
  match s.get? e.key with
  | some value => e.display value
  | none => e

/-- The value that a slider starts with, halfway between its ends. -/
def sliderStart : String := "50"

/-- The bound element of a node. Texts show their label until they have a
value, and are marked if they have none. -/
def ofNode? (n : Node) : Option BoundElement :=
  (nonEmpty? n.bind).bind fun key =>
    match n.kind with
    | .text =>
      some { fresh key .text with text := n.label.getD "", bindHint := n.label.isNone }
    | .input => some (fresh key .editable)
    | .slider => some { fresh key .editable with value := sliderStart }
    | .progress => some (fresh key .progress)
    | _ => none

end BoundElement

/-- The bound elements of a page, in document order. -/
abbrev View := List BoundElement

namespace View

def ofDocument (root : Node) : View :=
  root.preorder.filterMap BoundElement.ofNode?

def find? (v : View) (key : String) : Option Nat :=
  v.findIdx? (·.key == key)

/-- Moves the user to an element, or out of all of them. -/
def focus (v : View) (index : Option Nat) : View :=
  v.mapIdx fun i e => { e with focused := some i == index }

def refresh (v : View) (s : Store) : View :=
  v.map (BoundElement.refresh s)

/-- Changes the content of a field as typing does. -/
def setValue (v : View) (index : Nat) (value : String) : View :=
  v.modify index fun e => { e with value := value }

def editableKeys (v : View) : List String :=
  (v.filter (·.kind == .editable)).map (·.key)

end View

end PagePreview
