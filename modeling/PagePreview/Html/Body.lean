/-
PagePreview.Html.Body — the elements of a page.

Every node becomes one element. Boxes hold the elements of their children;
texts, buttons and inputs have a content of their own, and what is nested
in them is not shown. A node of unknown kind becomes a card that says so
and holds its children.

Attributes are written only where there is something to write: a style if
it is given at all, all others if they are not empty.
-/
import PagePreview.Html.Markup
import PagePreview.Node

namespace PagePreview

namespace Html

def attribute? (name : String) (value : Option String) : List Attribute :=
  (value.map (Attribute.mk name)).toList

/-- The script that reports the press of a button to the page's runtime. -/
def triggerScript (handler : String) : String :=
  "trigger('" ++ escapeScript handler ++ "')"

/-- The inline style of a node. -/
def styleOf (n : Node) : List Attribute :=
  attribute? "style" n.style

/-- The attribute that ties an element to a backend value. -/
def bindOf (n : Node) : List Attribute :=
  attribute? "wce-bind" (nonEmpty? n.bind)

/-- The style class of texts that stand in for something else. -/
def hint : Attribute := ⟨"class", "bind-hint"⟩

/-- A text that awaits its value carries a mark until it has one. -/
def hintOf (n : Node) : List Attribute :=
  if nonEmpty? n.bind ≠ none ∧ nonEmpty? n.label = none then [hint] else []

def textElement (n : Node) : Markup :=
  .element "span" (hintOf n ++ bindOf n ++ styleOf n)
    ((nonEmpty? n.label).map Markup.text).toList

/-- What a button without a label says. -/
def buttonFallback : String := "Button"

def buttonElement (n : Node) : Markup :=
  .element "button"
    (styleOf n ++ attribute? "onclick" ((nonEmpty? n.onClick).map triggerScript))
    [.text ((nonEmpty? n.label).getD buttonFallback)]

/-- A text field; the label is what it shows while it is empty. -/
def inputElement (n : Node) : Markup :=
  .void "input"
    (⟨"type", "text"⟩ :: styleOf n ++ attribute? "placeholder" (nonEmpty? n.label) ++ bindOf n)

def sliderElement (n : Node) : Markup :=
  .void "input"
    ([⟨"type", "range"⟩, ⟨"min", "0"⟩, ⟨"max", "100"⟩] ++ styleOf n ++ bindOf n)

def progressElement (n : Node) : Markup :=
  .element "progress" ([⟨"max", "100"⟩, ⟨"value", "0"⟩] ++ styleOf n ++ bindOf n) []

def boxElement (className : String) (n : Node) (content : List Markup) : Markup :=
  .element "div" (⟨"class", className⟩ :: styleOf n) content

/-- What a node of unknown kind says first. -/
def unknownNotice : Markup :=
  .element "div" [hint] [.text "Unknown node"]

mutual

def element : Node → Markup
  | ⟨kind, label, style, bind, onClick, children⟩ =>
    let n : Node := ⟨kind, label, style, bind, onClick, []⟩
    match kind with
    | .text => textElement n
    | .button => buttonElement n
    | .input => inputElement n
    | .slider => sliderElement n
    | .progress => progressElement n
    | .unknown => boxElement "card" n (unknownNotice :: elements children)
    | box => boxElement box.name n (elements children)

/-- The elements of nodes, one after the other. -/
def elements : List Node → List Markup
  | [] => []
  | n :: rest => element n :: elements rest

end

/-- The elements inside of a document's root. -/
def body (root : Node) : List Markup :=
  elements root.children

end Html

end PagePreview
