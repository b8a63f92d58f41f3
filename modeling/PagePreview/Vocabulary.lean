/-
PagePreview.Vocabulary — the calls a page description may use.

* `NodeKind` — what a node of the page is, with the kinds that are laid
  out as plain boxes (`isStructural`) and the kinds whose element can
  follow a value of the backend (`isBindable`).
* `Property` — the calls that annotate the node they stand in.
* `Call.resolve` — the one table that gives a call name its meaning; the
  reading of the document and its analysis both consult it.
-/

namespace PagePreview

/-- The kind of a node. `unknown` is the kind of every call outside the
vocabulary. -/
inductive NodeKind
  | container
  | row
  | col
  | card
  | panel
  | text
  | button
  | input
  | slider
  | progress
  | unknown
  deriving Repr, DecidableEq

namespace NodeKind

def all : List NodeKind :=
  [container, row, col, card, panel, text, button, input, slider, progress, unknown]

def name : NodeKind → String
  | container => "container"
  | row => "row"
  | col => "col"
  | card => "card"
  | panel => "panel"
  | text => "text"
  | button => "button"
  | input => "input"
  | slider => "slider"
  | progress => "progress"
  | unknown => "unknown"

def ofName? (s : String) : Option NodeKind :=
  all.find? (·.name == s)

/-- Kinds that only lay out their children. -/
def isStructural : NodeKind → Bool
  | container | row | col | card | panel => true
  | _ => false

/-- Kinds whose element shows or edits a value of the backend. -/
def isBindable : NodeKind → Bool
  | text | input | slider | progress => true
  | _ => false

theorem ofName?_name (k : NodeKind) : ofName? k.name = some k := by
  cases k <;> decide

end NodeKind

/-- The properties a node can be given. -/
inductive Property
  /-- Inline style. -/
  | css
  /-- The key of the backend value that the element follows. -/
  | bind
  /-- The handler triggered by a press. -/
  | onClick
  deriving Repr, DecidableEq

/-- The call that gives the property. -/
def Property.callName : Property → String
  | css => "wce_css"
  | bind => "wce_bind"
  | onClick => "wce_on_click"

inductive Call
  /-- Creates a node of the kind. -/
  | component (kind : NodeKind)
  /-- Annotates the open node. -/
  | property (p : Property)
  /-- Creates a node of unknown kind. -/
  | unknown
  deriving Repr, DecidableEq

namespace Call

/-- What every call name of the vocabulary starts with. -/
def vocabularyStart : String := "wce_"

def table : List (String × Call) :=
  [("wce_container", component .container),
   ("wce_row", component .row),
   ("wce_col", component .col),
   ("wce_card", component .card),
   ("wce_panel", component .panel),
   ("wce_text", component .text),
   ("wce_button", component .button),
   ("wce_input", component .input),
   ("wce_slider", component .slider),
   ("wce_progress", component .progress),
   ("wce_css", property .css),
   ("wce_bind", property .bind),
   ("wce_on_click", property .onClick)]

/-- The meaning of a call name; case matters. -/
def resolve (name : String) : Call :=
  (table.lookup name).getD unknown

/-- The kind of the node that a call creates. Properties create none and
count as unknown. -/
def nodeKind : Call → NodeKind
  | component kind => kind
  | _ => .unknown

theorem resolve_callName (p : Property) : resolve p.callName = property p := by
  cases p <;> decide

/-- A name has no other meaning than the table gives it. -/
theorem mem_table_of_resolve {name : String} {meaning : Call} (h : resolve name = meaning)
    (hknown : meaning ≠ unknown) : (name, meaning) ∈ table := by
  cases hlookup : table.lookup name with
  | none => exact absurd (by simp [← h, resolve, hlookup]) hknown
  | some m =>
    obtain rfl : m = meaning := by simpa [resolve, hlookup] using h
    obtain ⟨before, after, htable, -⟩ := List.lookup_eq_some_iff.mp hlookup
    simp [htable]

/-- Only the names of the properties have the meaning of a property. -/
theorem resolve_eq_property_iff {name : String} {p : Property} :
    resolve name = property p ↔ name = p.callName := by
  constructor
  · intro h
    have hmem := mem_table_of_resolve h (by simp)
    cases p <;> simpa [table, Property.callName] using hmem
  · rintro rfl
    exact resolve_callName p

/-- The vocabulary has no call for nodes of unknown kind. -/
theorem resolve_ne_component_unknown (name : String) : resolve name ≠ component .unknown := by
  intro h
  have hmem := mem_table_of_resolve h (by simp)
  simp [table] at hmem

end Call

end PagePreview
