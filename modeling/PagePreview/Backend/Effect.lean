/-
PagePreview.Backend.Effect — what events and updates do to the store.

An effect changes the text under one name. A handler or hook is set up
with one effect or with several, which then run in order.

* `Effect.apply` — the change.
* `Effect.ofWritten?` — the effect that a record describes. The kind comes
  first and decides which further fields there are; a kind that is not
  known makes an effect that does nothing.
* `EffectSet` — one effect, or a list of effects.
-/
import PagePreview.Backend.Store
import PagePreview.Backend.Template
import PagePreview.Json.Written

namespace PagePreview

/-- A change of the store. -/
inductive Effect
  /-- Stores a fixed value. -/
  | set (key : String) (val : Json)
  /-- Stores a text with placeholders. -/
  | setTemplate (key : String) (template : String)
  /-- Adds to the number under the key, one if nothing else is said. -/
  | inc (key : String) (amount : Option Double)
  /-- Turns true into false, and anything else into true. -/
  | toggle (key : String)
  /-- Does nothing. -/
  | unrecognized

inductive EffectKind
  | set
  | setTemplate
  | inc
  | toggle
  | unrecognized
  deriving Repr, DecidableEq

namespace EffectKind

/-- The kinds that do something, in order. -/
def recognized : List EffectKind :=
  [set, setTemplate, inc, toggle]

def name : EffectKind → String
  | set => "set"
  | setTemplate => "setTemplate"
  | inc => "inc"
  | toggle => "toggle"
  | unrecognized => "unrecognized"

def ofName (s : String) : EffectKind :=
  (recognized.find? (·.name == s)).getD unrecognized

/-- A kind is given by its name, or by its place among the recognized ones. -/
def ofWritten? : Json.Written → Option EffectKind
  | .string s => s.map ofName
  | .number (some (.integer n)) =>
    if 0 ≤ n then some (recognized[n.toNat]?.getD unrecognized) else none
  | _ => none

end EffectKind

namespace Effect

def kind : Effect → EffectKind
  | set .. => .set
  | setTemplate .. => .setTemplate
  | inc .. => .inc
  | toggle .. => .toggle
  | unrecognized => .unrecognized

/-- The name that an effect changes. -/
def target? : Effect → Option String
  | set key _ => some key
  | setTemplate key _ => some key
  | inc key _ => some key
  | toggle key => some key
  | unrecognized => none

/-- The number that is added; one that is not finite counts as one. -/
def delta : Option Double → Double
  | some x => if x.isFinite then x else Double.one
  | none => Double.one

/-- The text that an effect leaves in the place of another. -/
def newText (ctx : Context) (old : Option String) : Effect → String
  | set _ val => val.pageText
  | setTemplate _ template => Template.render template ctx
  | inc _ amount =>
    let previous := (old.map Double.ofPageText).getD (Double.zero false)
    (previous.add (delta amount)).pageText
  | toggle _ => if old = some "true" then "false" else "true"
  | unrecognized => old.getD ""

def apply (ctx : Context) (s : Store) (e : Effect) : Store :=
  match e.target? with
  | some key => s.insert key (e.newText ctx (s.get? key))
  | none => s

/-! ## Records -/

def optionalNumber? : Option Json.Written → Option (Option Double)
  | none => some none
  | some .null => some none
  | some (.number (some n)) => some (some n.toDouble)
  | _ => none

/-- The effect of a kind whose other fields are given. -/
def ofFields? (w : Json.Written) : EffectKind → Option Effect
  | .set => do
    let fields ← w.record? ["key", "val"]
    let key ← (fields.lookup "key").bind (·.text?)
    let val ← (fields.lookup "val").bind (·.wholeValue?)
    some (.set key val)
  | .setTemplate => do
    let fields ← w.record? ["key", "template"]
    let key ← (fields.lookup "key").bind (·.text?)
    let template ← (fields.lookup "template").bind (·.text?)
    some (.setTemplate key template)
  | .inc => do
    let fields ← w.record? ["key", "by"]
    let key ← (fields.lookup "key").bind (·.text?)
    let amount ← optionalNumber? (fields.lookup "by")
    some (.inc key amount)
  | .toggle => do
    let fields ← w.record? ["key"]
    let key ← (fields.lookup "key").bind (·.text?)
    some (.toggle key)
  | .unrecognized => do
    let _ ← w.record? []
    some .unrecognized

/-- The effect of a record: the kind, and the fields that belong to it. In
an array the kind comes first. -/
def ofWritten? : Json.Written → Option Effect
  | .object members =>
    match members.filter (·.1 == some "type") with
    | [(_, kind)] =>
      (EffectKind.ofWritten? kind).bind
        (ofFields? (.object (members.filter (·.1 != some "type"))))
    | _ => none
  | .array (kind :: fields) => (EffectKind.ofWritten? kind).bind (ofFields? (.array fields))
  | _ => none

def members : Effect → List (String × Json)
  | set key val => [("key", .string key), ("val", val)]
  | setTemplate key template => [("key", .string key), ("template", .string template)]
  | inc key (some x) => [("key", .string key), ("by", .number (.double x))]
  | inc key none => [("key", .string key)]
  | toggle key => [("key", .string key)]
  | unrecognized => []

def toJson (e : Effect) : Json :=
  .object (("type", .string e.kind.name) :: e.members)

end Effect

/-- What a handler or hook does. -/
inductive EffectSet
  | one (e : Effect)
  | many (es : List Effect)

namespace EffectSet

def effects : EffectSet → List Effect
  | one e => [e]
  | many es => es

def apply (ctx : Context) (s : Store) (es : EffectSet) : Store :=
  es.effects.foldl (Effect.apply ctx) s

/-- The effects of a record, or of an array of records. -/
def ofWritten? (w : Json.Written) : Option EffectSet :=
  match Effect.ofWritten? w, w with
  | some e, _ => some (one e)
  | none, .array items => (items.mapM Effect.ofWritten?).map many
  | none, _ => none

/-- The effects that a JSON text describes. Every part of the text has to
have a value, also the parts that no effect asks for. -/
def parse? (text : String) : Option EffectSet := do
  let w ← Json.Written.parse? text
  let _ ← w.value? Json.depthLimit
  ofWritten? w

def toJson : EffectSet → Json
  | one e => e.toJson
  | many es => .array (es.map Effect.toJson)

end EffectSet

end PagePreview
