/-
PagePreview.Html.Page — a whole page.

A page has the same frame whatever it shows: a style sheet, a banner with
the problems of its description, its elements, its configuration, and the
script that brings it to life.

* `StyleRule`, `styleSheet` — the style sheet.
* `banner` — the problems, of which only the first ones are listed.
* `render` — the page of a description.
* `PageOptions.parse?` — the options that a JSON text gives.
-/
import PagePreview.Backend.Bootstrap
import PagePreview.Document
import PagePreview.Html.Body
import PagePreview.Node.Json

namespace PagePreview

/-- What a page is made of besides its description. -/
structure PageOptions where
  /-- Where the script of the page is found. -/
  runtimeScriptSrc : Option String
  /-- The configuration of the simulated backend. -/
  simBootstrap : Option Bootstrap

namespace PageOptions

def default : PageOptions := ⟨none, none⟩

/-- The configuration of a field; null and no field stand for none. -/
def bootstrap? (levels : Nat) : Option Json.Written → Option (Option Bootstrap)
  | none => some none
  | some .null => some none
  | some w => (w.value? levels).map fun v => some (Bootstrap.ofValue v).1

/-- The options of a record, within a number of levels of nesting. -/
def ofWritten? : Nat → Json.Written → Option PageOptions
  | 0, _ => none
  | levels + 1, w => do
    let fields ← w.record? ["runtimeScriptSrc", "simBootstrap"]
    let src ← Json.Written.optionalText? (fields.lookup "runtimeScriptSrc")
    let bootstrap ← bootstrap? levels (fields.lookup "simBootstrap")
    some ⟨src, bootstrap⟩

def parse? (text : String) : Option PageOptions :=
  (Json.Written.parse? text).bind (ofWritten? Json.depthLimit)

end PageOptions

namespace Html

/-! ## Style sheet -/

/-- A rule of a style sheet: what it applies to, and the properties it sets. -/
structure StyleRule where
  selector : String
  declarations : List (String × String)

def StyleRule.text (r : StyleRule) : String :=
  "  " ++ r.selector ++ "\x7b" ++
    String.join (r.declarations.map fun d => d.1 ++ ":" ++ d.2 ++ ";") ++ "\x7d"

/-- The fonts of texts that are code. -/
def codeFonts : String :=
  "ui-monospace,SFMono-Regular,Menlo,Monaco,Consolas," ++
    "'Liberation Mono','Courier New',monospace"

def styleRules : List StyleRule :=
  [⟨"body",
    [("font-family", "-apple-system,BlinkMacSystemFont,'Segoe UI',Roboto,sans-serif"),
     ("margin", "0"), ("padding", "20px"), ("background", "#f0f2f5")]⟩,
   ⟨".container", [("max-width", "800px"), ("margin", "0 auto")]⟩,
   ⟨".row", [("display", "flex"), ("flex-wrap", "wrap"), ("margin", "-10px")]⟩,
   ⟨".col", [("flex", "1"), ("padding", "10px"), ("min-width", "200px")]⟩,
   ⟨".card",
    [("background", "white"), ("border-radius", "8px"), ("padding", "20px"),
     ("box-shadow", "0 2px 4px rgba(0,0,0,0.1)"), ("margin-bottom", "20px")]⟩,
   ⟨"button",
    [("background", "#007bff"), ("color", "white"), ("border", "none"),
     ("padding", "8px 16px"), ("border-radius", "4px"), ("cursor", "pointer"),
     ("font-size", "14px")]⟩,
   ⟨"button:hover", [("background", "#0056b3")]⟩,
   ⟨"input",
    [("padding", "8px"), ("border", "1px solid #ddd"), ("border-radius", "4px"),
     ("width", "100%"), ("box-sizing", "border-box")]⟩,
   ⟨".wce-errors",
    [("margin", "0 0 16px 0"), ("padding", "12px 14px"), ("border-radius", "10px"),
     ("background", "#fff3cd"), ("color", "#664d03"), ("border", "1px solid #ffecb5")]⟩,
   ⟨".wce-errors__title", [("font-weight", "700"), ("margin-bottom", "6px")]⟩,
   ⟨".wce-errors__list", [("margin", "0"), ("padding-left", "18px")]⟩,
   ⟨".wce-errors__list li",
    [("font-family", codeFonts), ("font-size", "12px"), ("line-height", "1.4")]⟩,
   ⟨".bind-hint", [("opacity", ".6"), ("font-family", codeFonts)]⟩]

/-- Lines, with an end between any two of them. -/
def lines (ls : List String) : String :=
  String.intercalate "\n" ls

def styleSheet : String :=
  lines (styleRules.map StyleRule.text)

/-! ## Banner -/

/-- A problem with its place; lines and columns are counted from one. -/
def problemText (source : String) (offset : Nat) (message : String) : String :=
  let p := Position.ofOffset source offset
  "L" ++ Notation.natString (p.line + 1) ++ ":C" ++ Notation.natString (p.column + 1) ++
    " " ++ message

/-- At most this many problems are listed. -/
def bannerLimit : Nat := 20

def bannerItem (source : String) (p : Problem) : Markup :=
  .element "li" [] [.text (problemText source p.offset p.fault.message)]

def bannerTitle (problems : List Problem) : Markup :=
  .element "div" [⟨"class", "wce-errors__title"⟩]
    [.text ("Parse errors (" ++ Notation.natString problems.length ++ ")")]

def bannerList (source : String) (problems : List Problem) : Markup :=
  .element "ul" [⟨"class", "wce-errors__list"⟩]
    ((problems.take bannerLimit).map (bannerItem source))

/-- The banner that counts all problems and lists the first ones. -/
def banner (source : String) (problems : List Problem) : List Markup :=
  if problems = [] then []
  else
    [.element "div" [⟨"class", "wce-errors"⟩]
      [.text "\n  ", bannerTitle problems, .text "\n  ", bannerList source problems,
       .text "\n"]]

/-! ## Page -/

/-- The element that loads the script of the page. -/
def runtimeTag (src : Option String) : List Markup :=
  (nonEmpty? src).toList.map fun src => .element "script" [⟨"src", src⟩] []

/-- The element that the page's runtime works in. -/
def app (root : Node) : Markup :=
  .element "div" [⟨"id", "app"⟩] (body root)

def page (source : String) (d : Document) (options : PageOptions) : String :=
  lines
    ["<!doctype html>",
     "<html>",
     "<head>",
     "<meta charset=\"utf-8\" />",
     "<meta name=\"viewport\" content=\"width=device-width, initial-scale=1\" />",
     "<title>WebCee Preview</title>",
     "<style>",
     styleSheet,
     "</style>",
     "</head>",
     "<body>",
     Markup.render (banner source d.problems),
     Markup.render [app d.root],
     (options.simBootstrap.getD .empty).scriptTag,
     Markup.render (runtimeTag options.runtimeScriptSrc),
     "</body>",
     "</html>"]

/-- A rendered description: the page, and the problems that it lists. -/
structure Rendered where
  html : String
  problems : List Problem

def render (source : String) (options : PageOptions) : Rendered :=
  let d := Document.parse source
  ⟨page source d options, d.problems⟩

end Html

end PagePreview
