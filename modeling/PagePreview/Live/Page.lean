/-
PagePreview.Live.Page — a page in use, with its backend.

The page talks to its backend in requests only. What it does on its own is
to pull the data and show it: once when it starts, after every press of a
button, and whenever a poll interval has passed on its clock.

* `LivePage.boot`, `press`, `change`, `advance` — what happens to a page.
* `LivePage.sync` — one pull: the data is asked for, read, written back
  and shown. If any of this fails, nothing changes, and the failure is
  reported.
-/
import PagePreview.Backend.Session
import PagePreview.Document
import PagePreview.Live.View

namespace PagePreview

/-- A page in use. -/
structure LivePage where
  session : Session
  view : View
  /-- The time between two polls, in milliseconds. -/
  interval : Nat
  /-- The time since the page was opened, in milliseconds. -/
  clock : Nat

namespace LivePage

/-- A page that was just opened. -/
def start (b : Bootstrap) (view : View) : LivePage :=
  ⟨.ofBootstrap b, view, b.pollInterval, 0⟩

/-- The page of a description. Problems of the description do not matter. -/
def ofSource (source : String) (b : Bootstrap) : LivePage :=
  start b (.ofDocument (Document.parse source).root)

/-- Shows the data of the backend. -/
def refresh (p : LivePage) : LivePage :=
  { p with view := p.view.refresh p.session.store }

/-- Replaces the data of the backend. -/
def withStore (p : LivePage) (s : Store) : LivePage :=
  { p with session := { p.session with store := s } }

/-- Sends a request to the backend. -/
def fetch (p : LivePage) (r : Request) : Step LivePage (Option Response) :=
  let step := p.session.dispatch r
  let p' := { p with session := step.state }
  { result := step.result.map (·.response)
    state := if step.result.any (·.refreshView) then p'.refresh else p'
    records := step.records }

/-- Writes every member of an object into a store. -/
def writeBack (s : Store) (members : List (String × Json)) : Store :=
  members.foldl (fun s m => s.insert m.1 m.2.pageText) s

/-- Pulls the data once. -/
def sync (p : LivePage) : Step LivePage Unit :=
  let step := p.fetch (.ofUrl "GET" "/api/data")
  match step.result with
  | none => ⟨(), step.state, step.records⟩
  | some r =>
    if r.isSuccess then
      match (Json.parse? r.body).bind (·.members?) with
      | some members =>
        ⟨(), (step.state.withStore (writeBack step.state.session.store members)).refresh,
          step.records⟩
      | none => ⟨(), step.state, step.records ++ [.pullUnreadable]⟩
    else ⟨(), step.state, step.records ++ [.pullRefused r.status]⟩

/-- Gives the keys that are missing an empty text. -/
def seed (s : Store) (keys : List String) : Store :=
  keys.foldl (fun s key => if s.contains key then s else s.insert key "") s

/-- Starts the page: fields get a value, all values are shown, and the
data is pulled once. -/
def boot (p : LivePage) : Step LivePage Unit :=
  sync (p.withStore (seed p.session.store p.view.editableKeys)).refresh

/-- The request that a button sends. An empty argument is left out. -/
def triggerUrl (event : String) (arg : Option String) : String :=
  "/api/trigger?event=" ++ Percent.encode event ++
    match nonEmpty? arg with
    | some arg => "&arg=" ++ Percent.encode arg
    | none => ""

/-- Presses a button: the event is sent, and the data is pulled whatever
the answer is. -/
def press (p : LivePage) (event : String) (arg : Option String) :
    Step LivePage (Option Response) :=
  let sent := p.fetch (.ofUrl "POST" (triggerUrl event arg))
  let pulled := sync sent.state
  ⟨sent.result, pulled.state, sent.records ++ pulled.records⟩

/-- The request that a field sends. -/
def updateUrl (key value : String) : String :=
  "/api/update?key=" ++ Percent.encode key ++ "&val=" ++ Percent.encode value

/-- What is reported of the answer to an edit. -/
def editReport (url : String) : Option Response → List LogRecord
  | some r => if r.isSuccess then [] else [.editRefused url r.body]
  | none => []

/-- Commits an edit of a field. On any other element there is no edit. -/
def change (p : LivePage) (index : Nat) (value : String) : Step LivePage Unit :=
  match p.view[index]? with
  | some e =>
    if e.kind = .editable then
      let edited := { p with view := p.view.setValue index value }
      let sent := edited.fetch (.ofUrl "POST" (updateUrl e.key value))
      ⟨(), sent.state, sent.records ++ editReport (updateUrl e.key value) sent.result⟩
    else ⟨(), p, []⟩
  | none => ⟨(), p, []⟩

/-- Pulls the data once more after a step. -/
def syncAfter (step : Step LivePage Unit) : Step LivePage Unit :=
  let next := sync step.state
  ⟨(), next.state, step.records ++ next.records⟩

/-- Pulls the data a number of times. -/
def syncTimes (n : Nat) (p : LivePage) : Step LivePage Unit :=
  n.repeat syncAfter ⟨(), p, []⟩

/-- Lets time pass, with a pull for every poll interval that comes to its
end. The clock stops at the greatest time it can show. -/
def advance (p : LivePage) (ms : Nat) : Step LivePage Nat :=
  let clock := min (p.clock + ms) Bootstrap.maxMilliseconds
  let ticks := clock / p.interval - p.clock / p.interval
  let pulled := syncTimes ticks { p with clock := clock }
  ⟨ticks, pulled.state, pulled.records⟩

end LivePage

end PagePreview
