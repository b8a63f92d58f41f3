/-
PagePreview.Backend.LogRecord — what a backend and its page report while
they work.

A configuration is reported where a part of it was left out, and a backend
where its data was changed. Besides, the way of each request is reported, and
where a page did not get what it asked for. This is for those who look for a
fault, and a log leaves it out unless it is asked for.

Not among the records are those of the passes over a description, which are
about no backend, and those of two things that do not happen: an effect whose
structure is right is never unreadable, and a configuration can always be
written.
-/
import PagePreview.Number.Notation

namespace PagePreview

/-- Something worth a line in the log. -/
inductive LogRecord
  /-- The configuration was no object. -/
  | configurationIgnored
  /-- An entry of a table of effects was malformed. -/
  | effectDropped (table name : String)
  /-- A list was no array. -/
  | listDropped (name : String)
  /-- A key was given a value. -/
  | modelUpdated (key value : String)
  /-- An event was triggered. -/
  | triggered (event arg : String)
  /-- A request came to the backend. -/
  | dispatched (method path : String)
  /-- The data was asked for, and the answer was no success. -/
  | pullRefused (status : Nat)
  /-- The data was asked for, and the answer cannot be read. -/
  | pullUnreadable
  /-- An edit was sent, and the answer was no success. -/
  | editRefused (url body : String)
  deriving Repr, DecidableEq

namespace LogRecord

def level : LogRecord → String
  | modelUpdated .. | triggered .. => "INFO"
  | dispatched .. | pullRefused _ | pullUnreadable | editRefused .. => "DEBUG"
  | _ => "WARN"

def message : LogRecord → String
  | configurationIgnored => "ignoring non-object simulation bootstrap"
  | effectDropped table name =>
    "dropping " ++ table ++ " entry '" ++ name ++ "': malformed effect"
  | listDropped name => "dropping list '" ++ name ++ "': not an array"
  | modelUpdated key value => "[WebCee Sim] model update: " ++ key ++ " = " ++ value
  | triggered event arg => "[WebCee Sim] trigger: " ++ event ++ " " ++ arg
  | dispatched method path => "dispatch " ++ method ++ " " ++ path
  | pullRefused status => "sync skipped: status " ++ Notation.natString status
  -- The reader's own account of what is wrong would follow here.
  | pullUnreadable => "sync skipped: "
  | editRefused url body => "update for '" ++ url ++ "' failed: " ++ body

end LogRecord

end PagePreview
