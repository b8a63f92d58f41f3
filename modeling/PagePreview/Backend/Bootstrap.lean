/-
PagePreview.Backend.Bootstrap — the configuration of a simulated backend.

A configuration comes from outside and is read leniently: every part that
is well formed is kept, every other part is left out, and entries that are
left out are reported. It is written back as JSON inside of a script
element.

* `Bootstrap.ofValue` — the configuration in a JSON value, and the report.
* `Bootstrap.inlineJson` — the configuration as JSON, safe in a script.
* `Bootstrap.pollInterval` — the time between two polls of a page.
-/
import PagePreview.Backend.Effect
import PagePreview.Backend.LogRecord

namespace PagePreview

/-- The configuration of a backend. -/
structure Bootstrap where
  pollIntervalMs : Option Double
  initialData : Table String
  /-- What events do. -/
  handlerEffects : Table EffectSet
  /-- What happens after a key was given a value. -/
  modelUpdateEffects : Table EffectSet
  /-- Data that can be asked for but does not change. -/
  lists : Table (List Json)
  onTriggerLog : Option Bool
  onModelUpdateLog : Option Bool

namespace Bootstrap

/-- The configuration in which nothing is said. -/
def empty : Bootstrap :=
  ⟨none, .empty, .empty, .empty, .empty, none, none⟩

/-! ## Reading -/

/-- The structure of an effect: a name, a kind, and what the kind needs. -/
def isEffect (v : Json) : Bool :=
  let isText (name : String) := ((v.member? name).bind (·.text?)).isSome
  isText "key" &&
    match (v.member? "type").bind (·.text?) with
    | some "set" => (v.member? "val").isSome
    | some "setTemplate" => isText "template"
    | some "inc" => (v.member? "by").all fun amount => amount.number?.isSome
    | some "toggle" => true
    | _ => false

/-- The structure of an entry of a table of effects. -/
def isEffectEntry : Json → Bool
  | .array items => items.all isEffect
  | v => isEffect v

def entry? (v : Json) : Option EffectSet :=
  if isEffectEntry v then EffectSet.ofWritten? (.ofValue v) else none

/-- Puts the entries that can be read into a table, and reports the others. -/
def readEntries {α : Type} (read? : Json → Option α) (dropped : String → LogRecord)
    (entries : List (String × Json)) : Table α × List LogRecord :=
  let kept := entries.filterMap fun e => (read? e.2).map (e.1, ·)
  let lost := entries.filter fun e => (read? e.2).isNone
  (Table.ofList kept, lost.map fun e => dropped e.1)

/-- The members of a field that is an object; any other field has none. -/
def entriesOf (v : Json) (field : String) : List (String × Json) :=
  ((v.member? field).bind (·.members?)).getD []

def effectTable (v : Json) (field : String) : Table EffectSet × List LogRecord :=
  readEntries entry? (.effectDropped field) (entriesOf v field)

def items? : Json → Option (List Json)
  | .array items => some items
  | _ => none

def ofObject (v : Json) : Bootstrap × List LogRecord :=
  let handlers := effectTable v "handlerEffects"
  let hooks := effectTable v "modelUpdateEffects"
  let lists := readEntries items? .listDropped (entriesOf v "lists")
  ({ pollIntervalMs := ((v.member? "pollIntervalMs").bind (·.number?)).map (·.toDouble)
     initialData := Table.ofList ((entriesOf v "initialData").map fun e => (e.1, e.2.pageText))
     handlerEffects := handlers.1
     modelUpdateEffects := hooks.1
     lists := lists.1
     onTriggerLog := (v.member? "onTriggerLog").bind (·.bool?)
     onModelUpdateLog := (v.member? "onModelUpdateLog").bind (·.bool?) },
   handlers.2 ++ hooks.2 ++ lists.2)

/-- The configuration in a JSON value. Null stands for an empty one, and so
does, with a report, any other value that is not an object. -/
def ofValue : Json → Bootstrap × List LogRecord
  | .object members => ofObject (.object members)
  | .null => (empty, [])
  | _ => (empty, [.configurationIgnored])

def parse? (text : String) : Option (Bootstrap × List LogRecord) :=
  (Json.parse? text).map ofValue

/-! ## Use -/

def defaultPollInterval : Nat := 100

/-- The greatest number of milliseconds that a clock can show. -/
def maxMilliseconds : Nat := Nat.pow 2 64 - 1

/-- The time between two polls in whole milliseconds, at least one. -/
def pollInterval (b : Bootstrap) : Nat :=
  match b.pollIntervalMs with
  | some ms =>
    if ms.isFinite then min (max ms.roundToNat 1) maxMilliseconds else defaultPollInterval
  | none => defaultPollInterval

/-! ## Writing -/

def optionalMember (name : String) : Option Json → List (String × Json)
  | none => []
  | some v => [(name, v)]

def tableMember {α : Type} (name : String) (toJson : α → Json) (t : Table α) :
    List (String × Json) :=
  if t.entries = [] then []
  else [(name, .object (t.entries.map fun e => (e.1, toJson e.2)))]

/-- The configuration as a JSON value. What says nothing is left out. -/
def toJson (b : Bootstrap) : Json :=
  .object <|
    optionalMember "pollIntervalMs" (b.pollIntervalMs.map fun ms => .number (.double ms)) ++
    tableMember "initialData" .string b.initialData ++
    tableMember "handlerEffects" EffectSet.toJson b.handlerEffects ++
    tableMember "modelUpdateEffects" EffectSet.toJson b.modelUpdateEffects ++
    tableMember "lists" .array b.lists ++
    optionalMember "onTriggerLog" (b.onTriggerLog.map .bool) ++
    optionalMember "onModelUpdateLog" (b.onModelUpdateLog.map .bool)

/-- Writes the start of a closing tag so that it is none. Inside of JSON
it can only stand in a string, where the escape changes nothing. -/
def guardClosingTags : List Char → List Char
  | '<' :: '/' :: rest => '<' :: '\\' :: '/' :: guardClosingTags rest
  | c :: rest => c :: guardClosingTags rest
  | [] => []

def inlineJson (b : Bootstrap) : String :=
  String.ofList (guardClosingTags b.toJson.write)

/-- The global variable that a page finds its configuration in. -/
def globalName : String := "__WEBCEE_SIM_BOOTSTRAP__"

def scriptTag (b : Bootstrap) : String :=
  "<script>window." ++ globalName ++ " = " ++ b.inlineJson ++ ";</script>"

end Bootstrap

end PagePreview
