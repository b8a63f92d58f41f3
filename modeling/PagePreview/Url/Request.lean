/-
PagePreview.Url.Request — requests to the simulated backend.

A request is made of a method and a URL. Of the URL, the fragment is left
out, the query is taken apart into decoded pairs, and scheme and authority
are dropped from the rest, so that only the path remains.

* `Query.parse` — the pairs of a query.
* `Request.ofUrl` — a request from a method and a URL.
* `Request.ofLine?` — a request from a line such as `POST /api/data`.
* `Response` — an answer.
-/
import PagePreview.Text.Blank
import PagePreview.Text.Split
import PagePreview.Url.Percent

namespace PagePreview

/-- A pair of a query. The value is empty where there is no equals sign. -/
def Query.pair (cs : List Char) : String × String :=
  let (name, value) := splitFirst '=' cs
  (Percent.decode name, Percent.decode (value.getD []))

/-- The pairs of a query, in order. Ampersands separate them, and nothing
between two ampersands is no pair. -/
def Query.parse (cs : List Char) : List (String × String) :=
  ((cs.splitOn '&').filter (· ≠ [])).map Query.pair

structure Request where
  method : String
  path : String
  query : List (String × String)
  deriving Repr, DecidableEq

namespace Request

/-- What follows the first `://`. -/
def afterScheme? : List Char → Option (List Char)
  | [] => none
  | c :: rest =>
    match dropStart? "://".toList (c :: rest) with
    | some after => some after
    | none => afterScheme? rest

def pathOf (target : List Char) : List Char :=
  let path := match afterScheme? target with
    | some after =>
      match after.dropWhile (· ≠ '/') with
      | [] => ['/']
      | path => path
    | none => target
  if path.head? = some '/' then path else '/' :: path

def methodOf (method : String) : String :=
  let m := trim method.toList
  if m = [] then "GET" else String.ofList (m.map Char.toUpper)

/-- The request of a method and a URL. -/
def ofUrl (method url : String) : Request :=
  let target := (splitFirst '#' url.toList).1
  let (address, query) := splitFirst '?' target
  ⟨methodOf method, String.ofList (pathOf address), Query.parse (query.getD [])⟩

/-- The request of a line: a method and a URL, or a path alone. -/
def ofLine? (line : String) : Option Request :=
  match words line.toList with
  | [method, url] => some (ofUrl (String.ofList method) (String.ofList url))
  | [url] => if url.head? = some '/' then some (ofUrl "GET" (String.ofList url)) else none
  | _ => none

/-- What is said about a line that is no request. -/
def invalidLine (line : String) : String :=
  "invalid request '" ++ line ++ "': expected `METHOD /path?query`"

def param? (r : Request) (name : String) : Option String :=
  r.query.lookup name

/-- What the paths of the backend start with. -/
def apiStart : String := "/api/"

/-- Whether the request is for the backend. -/
def isApi (r : Request) : Bool :=
  apiStart.toList.isPrefixOf r.path.toList

end Request

/-- An answer to a request. -/
structure Response where
  status : Nat
  contentType : String
  body : String
  deriving Repr, DecidableEq

namespace Response

def json (body : String) : Response :=
  ⟨200, "application/json", body⟩

def text (status : Nat) (body : String) : Response :=
  ⟨status, "text/plain", body⟩

/-- The answer to a change that was made. -/
def ok : Response := text 200 "OK"

/-- The answer to a request that nobody serves. -/
def notFound : Response := text 404 "Not Found"

def isSuccess (r : Response) : Bool :=
  200 ≤ r.status && r.status < 300

end Response

end PagePreview
