/-
PagePreview.Backend.Session — the simulated backend at work.

A session holds the store and the effects it was configured with. It
changes in two ways: a key is given a value, whose hook then runs, or an
event is triggered, whose handler runs. Requests lead to these two, or
read data; everything else is refused and changes nothing. Each request
that is answered is reported before it is served.

* `Session.update`, `Session.trigger` — the two changes.
* `Session.dispatch` — the answer to a request, if the backend answers it.
-/
import PagePreview.Backend.Bootstrap
import PagePreview.Url.Request

namespace PagePreview

/-- The state of a backend. -/
structure Session where
  store : Store
  handlerEffects : Table EffectSet
  modelUpdateEffects : Table EffectSet
  lists : Table (List Json)
  logsTriggers : Bool
  logsUpdates : Bool

/-- An answer, and whether the page should look at the data again. -/
structure Answer where
  response : Response
  refreshView : Bool
  deriving Repr, DecidableEq

/-- The outcome of a step: a result, the state it leaves, and what was
reported meanwhile. -/
structure Step (σ α : Type) where
  result : α
  state : σ
  records : List LogRecord

/-- What a log keeps of the records of a step if it is not asked for those
that help to find a fault. -/
def Step.log {σ α : Type} (step : Step σ α) : List LogRecord :=
  step.records.filter (·.level ≠ "DEBUG")

namespace Session

/-- The backend of a configuration. Logging is on unless it is turned off. -/
def ofBootstrap (b : Bootstrap) : Session :=
  { store := b.initialData
    handlerEffects := b.handlerEffects
    modelUpdateEffects := b.modelUpdateEffects
    lists := b.lists
    logsTriggers := b.onTriggerLog != some false
    logsUpdates := b.onModelUpdateLog != some false }

/-- Runs the effects under a name, if there are any. -/
def run (table : Table EffectSet) (name : String) (ctx : Context) (s : Store) : Store :=
  match table.get? name with
  | some effects => effects.apply ctx s
  | none => s

/-- Gives a key a value, and runs its hook. -/
def update (s : Session) (key val : String) : Step Session Unit :=
  let store := run s.modelUpdateEffects key (.ofUpdate key val) (s.store.insert key val)
  { result := ()
    state := { s with store := store }
    records := if s.logsUpdates then [.modelUpdated key ((store.get? key).getD "")] else [] }

def trigger (s : Session) (event arg : String) : Step Session Unit :=
  { result := ()
    state := { s with store := run s.handlerEffects event (.ofTrigger arg) s.store }
    records := if s.logsTriggers then [.triggered event arg] else [] }

/-- The items of a list; a list that there is not has none. -/
def list (s : Session) (name : String) : Json :=
  .array ((s.lists.get? name).getD [])

def reply (s : Session) (r : Response) : Step Session Answer :=
  ⟨⟨r, false⟩, s, []⟩

def confirm (step : Step Session Unit) : Step Session Answer :=
  ⟨⟨.ok, true⟩, step.state, step.records⟩

def nonEmptyParam? (r : Request) (name : String) : Option String :=
  (r.param? name).filter (· ≠ "")

def serve (s : Session) (r : Request) : Step Session Answer :=
  if r.method = "GET" ∧ r.path = "/api/data" then s.reply (.json s.store.json)
  else if r.method = "POST" ∧ r.path = "/api/update" then
    match nonEmptyParam? r "key", r.param? "val" with
    | some key, some val => confirm (s.update key val)
    | _, _ => s.reply (.text 400 "Missing params")
  else if r.method = "POST" ∧ r.path = "/api/trigger" then
    match nonEmptyParam? r "event" with
    | some event => confirm (s.trigger event ((r.param? "arg").getD ""))
    | none => s.reply (.text 400 "Missing event param")
  else if r.method = "GET" ∧ r.path = "/api/list" then
    match nonEmptyParam? r "name" with
    | some name => s.reply (.json (s.list name).text)
    | none => s.reply (.text 400 "Missing name param")
  else s.reply .notFound

/-- The answer to a request. Requests for other paths are left to others. -/
def dispatch (s : Session) (r : Request) : Step Session (Option Answer) :=
  if r.isApi then
    let step := s.serve r
    ⟨some step.result, step.state, .dispatched r.method r.path :: step.records⟩
  else ⟨none, s, []⟩

end Session

end PagePreview
