/-
PagePreview.Proofs.Html.Seen — what a reader sees of a document.

What is to be seen of a node is said here from the node alone, without the
renderer: a table gives the attributes of each kind with the condition
under which each of them is there, and every attribute has its value by
its name. A reader of the page sees exactly this, so no text of a node can
end the place it stands in or begin another.

* `Node.attributeNames`, `Node.attributeText` — the attributes of a node.
* `Node.seen` — the tags and the characters of a node and its descendants.
* `WellNested` — every tag that is opened is closed, innermost first.
* `Node.outline` — a node with every text replaced by one and the same.
* `read_body_eq_seenAll` — what is read of the body of a document.
-/
import PagePreview.Proofs.Html.Body

namespace PagePreview

open Html

/-! ## What is to be seen of a node -/

/-- Which texts of a node are there. A style is there as soon as it is
given, any other text if it is not empty. -/
structure Presence where
  label : Bool
  style : Bool
  bind : Bool
  onClick : Bool
  deriving DecidableEq

/-- The tag of the elements of a kind. -/
def NodeKind.tag : NodeKind → String
  | .text => "span"
  | .button => "button"
  | .input | .slider => "input"
  | .progress => "progress"
  | .container | .row | .col | .card | .panel | .unknown => "div"

/-- The attributes that elements of a kind may have, in order, and whether
they have them. -/
def NodeKind.attributeTable (p : Presence) : NodeKind → List (String × Bool)
  | .text => [("class", p.bind && !p.label), ("wce-bind", p.bind), ("style", p.style)]
  | .button => [("style", p.style), ("onclick", p.onClick)]
  | .input =>
    [("type", true), ("style", p.style), ("placeholder", p.label), ("wce-bind", p.bind)]
  | .slider =>
    [("type", true), ("min", true), ("max", true), ("style", p.style), ("wce-bind", p.bind)]
  | .progress => [("max", true), ("value", true), ("style", p.style), ("wce-bind", p.bind)]
  | .container | .row | .col | .card | .panel | .unknown =>
    [("class", true), ("style", p.style)]

namespace Node

def presence (n : Node) : Presence :=
  ⟨(nonEmpty? n.label).isSome, n.style.isSome, (nonEmpty? n.bind).isSome,
    (nonEmpty? n.onClick).isSome⟩

/-- The names of the attributes that a node of a kind has. -/
def attributeNames (kind : NodeKind) (p : Presence) : List String :=
  ((kind.attributeTable p).filter (·.2)).map (·.1)

/-- The value of a node's attribute: a text of the node, or a fixed word. -/
def attributeText (n : Node) (name : String) : String :=
  if name = "style" then n.style.getD ""
  else if name = "wce-bind" then n.bind.getD ""
  else if name = "placeholder" then n.label.getD ""
  else if name = "onclick" then "trigger('" ++ escapeScript (n.onClick.getD "") ++ "')"
  else if name = "class" then
    match n.kind with
    | .text => "bind-hint"
    | .unknown => "card"
    | kind => kind.name
  else if name = "type" then if n.kind = .slider then "range" else "text"
  else if name = "max" then "100"
  else "0"

def attributes (n : Node) : List Attribute :=
  (attributeNames n.kind n.presence).map fun name => ⟨name, n.attributeText name⟩

/-- The characters of a text. -/
def chars (s : String) : List Event :=
  s.toList.map .char

/-- What is to be seen inside of the element of a node. Only boxes show
what is seen of the children. -/
def inside (n : Node) (children : List Event) : List Event :=
  match n.kind with
  | .text => chars (n.label.getD "")
  | .button => chars ((nonEmpty? n.label).getD "Button")
  | .input | .slider | .progress => []
  | .unknown =>
    .start "div" [⟨"class", "bind-hint"⟩] :: (chars "Unknown node" ++ .stop "div" :: children)
  | .container | .row | .col | .card | .panel => children

/-- The element of an input has no content and no end. -/
def ending (kind : NodeKind) : List Event :=
  if kind.tag = "input" then [] else [.stop kind.tag]

mutual

/-- What is to be seen of a node and its descendants. -/
def seen : Node → List Event
  | ⟨kind, label, style, bind, onClick, children⟩ =>
    let n : Node := ⟨kind, label, style, bind, onClick, []⟩
    .start kind.tag n.attributes :: (n.inside (seenAll children) ++ ending kind)

def seenAll : List Node → List Event
  | [] => []
  | n :: rest => seen n ++ seenAll rest

end

end Node

/-! ## The attributes of the elements -/

namespace Node

variable (n : Node)

/-- The attribute in a row of the table, if the node has it. -/
def row (r : String × Bool) : List Attribute :=
  if r.2 then [⟨r.1, n.attributeText r.1⟩] else []

theorem attributes_eq_flatMap :
    n.attributes = (n.kind.attributeTable n.presence).flatMap n.row := by
  rw [attributes, attributeNames]
  induction n.kind.attributeTable n.presence with
  | nil => rfl
  | cons r rest ih =>
    cases hr : r.2 <;> simp [row, hr, ih]

theorem row_style : n.row ("style", n.presence.style) = styleOf n := by
  cases hstyle : n.style <;>
    simp [row, presence, styleOf, attribute?, attributeText, hstyle]

theorem row_bind : n.row ("wce-bind", n.presence.bind) = bindOf n := by
  cases hbind : nonEmpty? n.bind with
  | none => simp [row, presence, bindOf, attribute?, hbind]
  | some key =>
    have hkey : n.bind.getD "" = key := by rw [(nonEmpty?_eq_some_iff.mp hbind).1]; rfl
    simp [row, presence, bindOf, attribute?, attributeText, hbind, hkey]

theorem row_placeholder :
    n.row ("placeholder", n.presence.label) = attribute? "placeholder" (nonEmpty? n.label) := by
  cases hlabel : nonEmpty? n.label with
  | none => simp [row, presence, attribute?, hlabel]
  | some text =>
    have htext : n.label.getD "" = text := by rw [(nonEmpty?_eq_some_iff.mp hlabel).1]; rfl
    simp [row, presence, attribute?, attributeText, hlabel, htext]

theorem row_onClick :
    n.row ("onclick", n.presence.onClick) =
      attribute? "onclick" ((nonEmpty? n.onClick).map triggerScript) := by
  cases hclick : nonEmpty? n.onClick with
  | none => simp [row, presence, attribute?, hclick]
  | some handler =>
    have hhandler : n.onClick.getD "" = handler := by
      rw [(nonEmpty?_eq_some_iff.mp hclick).1]; rfl
    simp [row, presence, attribute?, attributeText, triggerScript, hclick, hhandler]

theorem row_fixed (name : String) : n.row (name, true) = [⟨name, n.attributeText name⟩] :=
  rfl

theorem row_hint (h : n.kind = .text) :
    n.row ("class", n.presence.bind && !n.presence.label) = hintOf n := by
  cases hbind : nonEmpty? n.bind <;> cases hlabel : nonEmpty? n.label <;>
    simp [row, presence, hintOf, hint, attributeText, hbind, hlabel, h]

theorem attributes_text (h : n.kind = .text) :
    n.attributes = hintOf n ++ bindOf n ++ styleOf n := by
  rw [attributes_eq_flatMap, h]
  simp [NodeKind.attributeTable, row_hint n h, row_bind, row_style]

theorem attributes_button (h : n.kind = .button) :
    n.attributes =
      styleOf n ++ attribute? "onclick" ((nonEmpty? n.onClick).map triggerScript) := by
  rw [attributes_eq_flatMap, h]
  simp [NodeKind.attributeTable, row_style, row_onClick]

theorem attributes_input (h : n.kind = .input) :
    n.attributes =
      ⟨"type", "text"⟩ :: styleOf n ++ attribute? "placeholder" (nonEmpty? n.label) ++
        bindOf n := by
  rw [attributes_eq_flatMap, h]
  simp [NodeKind.attributeTable, row_style, row_placeholder, row_bind, row_fixed,
    attributeText, h]

theorem attributes_slider (h : n.kind = .slider) :
    n.attributes =
      [⟨"type", "range"⟩, ⟨"min", "0"⟩, ⟨"max", "100"⟩] ++ styleOf n ++ bindOf n := by
  rw [attributes_eq_flatMap, h]
  simp [NodeKind.attributeTable, row_style, row_bind, row_fixed, attributeText, h]

theorem attributes_progress (h : n.kind = .progress) :
    n.attributes = [⟨"max", "100"⟩, ⟨"value", "0"⟩] ++ styleOf n ++ bindOf n := by
  rw [attributes_eq_flatMap, h]
  simp [NodeKind.attributeTable, row_style, row_bind, row_fixed, attributeText]

theorem attributes_unknown (h : n.kind = .unknown) :
    n.attributes = ⟨"class", "card"⟩ :: styleOf n := by
  rw [attributes_eq_flatMap, h]
  simp [NodeKind.attributeTable, row_style, row_fixed, attributeText, h]

theorem attributes_structural (h : n.kind.isStructural) :
    n.attributes = ⟨"class", n.kind.name⟩ :: styleOf n := by
  rw [attributes_eq_flatMap]
  cases hkind : n.kind <;> simp [hkind, NodeKind.isStructural] at h <;>
    simp [NodeKind.attributeTable, row_style, row_fixed, attributeText, hkind]

end Node

/-! ## The elements of a document -/

namespace Html

theorem eventsAll_labelText (n : Node) :
    Markup.eventsAll ((nonEmpty? n.label).map Markup.text).toList =
      Node.chars (n.label.getD "") := by
  cases hlabel : nonEmpty? n.label with
  | none =>
    have hempty : n.label.getD "" = "" := by
      cases hl : n.label with
      | none => rfl
      | some text => exact nonEmpty?_eq_none_iff.mp hlabel text hl
    rw [hempty]
    rfl
  | some text =>
    have htext := (nonEmpty?_eq_some_iff.mp hlabel).1
    simp [Markup.eventsAll, Markup.events, Node.chars, htext]

mutual

/-- There is to be seen in the element of a node what there is to be seen of
the node. -/
theorem events_element : ∀ n : Node, (element n).events = n.seen
  | ⟨kind, label, style, bind, onClick, children⟩ => by
      have hchildren := eventsAll_elements children
      cases kind with
      | text =>
        rw [Node.seen, Node.attributes_text _ rfl, element, textElement, Markup.events,
          eventsAll_labelText]
        rfl
      | button =>
        rw [Node.seen, Node.attributes_button _ rfl, element, buttonElement, Markup.events]
        simp [Markup.eventsAll, Markup.events, Node.inside, Node.chars, Node.ending,
          NodeKind.tag, buttonFallback]
      | input =>
        rw [Node.seen, Node.attributes_input _ rfl]
        rfl
      | slider =>
        rw [Node.seen, Node.attributes_slider _ rfl]
        rfl
      | progress =>
        rw [Node.seen, Node.attributes_progress _ rfl]
        rfl
      | unknown =>
        rw [Node.seen, Node.attributes_unknown _ rfl, ← hchildren]
        simp [element, boxElement, unknownNotice, hint, Markup.events, Markup.eventsAll,
          Node.inside, Node.chars, Node.ending, NodeKind.tag, styleOf]
      | container | row | col | card | panel =>
        rw [Node.seen, Node.attributes_structural _ rfl, ← hchildren]
        rfl

theorem eventsAll_elements : ∀ ns : List Node,
    Markup.eventsAll (elements ns) = Node.seenAll ns
  | [] => rfl
  | n :: rest => by
      rw [elements, Markup.eventsAll, events_element n, eventsAll_elements rest, Node.seenAll]

end

/-! ## Nesting -/

/-- The tags that are open after an event, innermost first. Inputs are never
open; what is closed has to be the innermost. -/
def Event.nest (opened : List String) : Event → Option (List String)
  | .start tag _ => some (if tag = "input" then opened else tag :: opened)
  | .stop tag => if opened.head? = some tag then some opened.tail else none
  | .char _ => some opened

/-- Every tag that is opened is closed, innermost first, and no other. -/
def WellNested (es : List Event) : Prop :=
  es.foldlM Event.nest [] = some []

theorem foldlM_nest_chars (opened : List String) (s : String) :
    (Node.chars s).foldlM Event.nest opened = some opened := by
  rw [Node.chars]
  induction s.toList with
  | nil => rfl
  | cons c rest ih => simpa [Event.nest] using ih

theorem foldlM_nest_element {kind : NodeKind} (attributes : List Attribute)
    {content : List Event} {opened : List String}
    (hcontent : ∀ opened, content.foldlM Event.nest opened = some opened) :
    (.start kind.tag attributes :: (content ++ Node.ending kind)).foldlM Event.nest opened =
      some opened := by
  rw [List.foldlM_cons, Event.nest, Option.bind_eq_bind, Option.bind_some,
    List.foldlM_append, hcontent]
  by_cases htag : kind.tag = "input" <;> simp [Node.ending, Event.nest, htag]

theorem foldlM_nest_inside (n : Node) {children : List Event}
    (hchildren : ∀ opened, children.foldlM Event.nest opened = some opened)
    (opened : List String) : (n.inside children).foldlM Event.nest opened = some opened := by
  cases hkind : n.kind with
  | text => simp only [Node.inside, hkind, foldlM_nest_chars]
  | button => simp only [Node.inside, hkind, foldlM_nest_chars]
  | input | slider | progress => simp [Node.inside, hkind]
  | unknown =>
    simp only [Node.inside, hkind, List.foldlM_cons, List.foldlM_append, Event.nest]
    simp [foldlM_nest_chars, hchildren]
  | container | row | col | card | panel => simp only [Node.inside, hkind, hchildren]

mutual

/-- What is seen of a node leaves open what was open before. -/
theorem foldlM_nest_seen : ∀ (n : Node) (opened : List String),
    n.seen.foldlM Event.nest opened = some opened
  | ⟨_, _, _, _, _, children⟩, _ =>
      foldlM_nest_element _ (foldlM_nest_inside _ (foldlM_nest_seenAll children))

theorem foldlM_nest_seenAll : ∀ (ns : List Node) (opened : List String),
    (Node.seenAll ns).foldlM Event.nest opened = some opened
  | [], _ => rfl
  | n :: rest, opened => by
      rw [Node.seenAll, List.foldlM_append, foldlM_nest_seen n]
      exact foldlM_nest_seenAll rest opened

end

/-! ## Names -/

/-- An event without the texts in it: a tag and the names of its attributes. -/
def Event.outline? : Event → Option Event
  | .start tag attributes => some (.start tag (attributes.map fun a => ⟨a.name, ""⟩))
  | .stop tag => some (.stop tag)
  | .char _ => none

/-- The tags that are seen, with the names of their attributes. -/
def outline (es : List Event) : List Event :=
  es.filterMap Event.outline?

end Html

namespace Node

/-- Some text in the place of every text that there is. -/
def mask (s : Option String) : Option String :=
  s.map fun _ => "text"

mutual

/-- The node with the same word in the place of all texts. All that is left
are the kinds, and which texts there are. -/
def outline : Node → Node
  | ⟨kind, label, style, bind, onClick, children⟩ =>
    ⟨kind, mask (nonEmpty? label), mask style, mask (nonEmpty? bind), mask (nonEmpty? onClick),
      outlineAll children⟩

def outlineAll : List Node → List Node
  | [] => []
  | n :: rest => outline n :: outlineAll rest

end

theorem nonEmpty?_mask (s : Option String) :
    (nonEmpty? (mask (nonEmpty? s))).isSome = (nonEmpty? s).isSome := by
  cases nonEmpty? s <;> rfl

/-- The outline of a node has the texts that the node has. -/
theorem presence_mask (kind : NodeKind) (label style bind onClick : Option String)
    (children children' : List Node) :
    presence ⟨kind, mask (nonEmpty? label), mask style, mask (nonEmpty? bind),
        mask (nonEmpty? onClick), children⟩ =
      presence ⟨kind, label, style, bind, onClick, children'⟩ := by
  simp only [presence, nonEmpty?_mask]
  cases style <;> rfl

theorem children_outline (n : Node) : n.outline.children = outlineAll n.children := by
  cases n
  rfl

end Node

namespace Html

theorem outline_append (es es' : List Event) : outline (es ++ es') = outline es ++ outline es' :=
  List.filterMap_append

theorem outline_chars (s : String) : outline (Node.chars s) = [] := by
  simp [outline, Node.chars, Event.outline?]

/-- The names of attributes depend on the kind of a node, and on which texts
there are. -/
theorem outline?_start (n : Node) :
    Event.outline? (.start n.kind.tag n.attributes) =
      some (.start n.kind.tag
        ((Node.attributeNames n.kind n.presence).map fun name => ⟨name, ""⟩)) := by
  simp [Event.outline?, Node.attributes]

/-- Inside of an element, only the kind of the node and what is seen of the
children say which tags there are. -/
theorem outline_inside {n n' : Node} {children children' : List Event} (hkind : n.kind = n'.kind)
    (h : outline children = outline children') :
    outline (n.inside children) = outline (n'.inside children') := by
  unfold Node.inside
  rw [← hkind]
  cases n.kind with
  | text | button => simp only [outline_chars]
  | input | slider | progress => rfl
  | unknown =>
    simp only [← List.singleton_append (l := _ ++ _), ← List.singleton_append (l := children),
      ← List.singleton_append (l := children'), outline_append, h]
  | container | row | col | card | panel => exact h

/-- Elements of nodes of one kind with the same texts show the same tags if
their children do. -/
theorem outline_element (n n' : Node) {children children' : List Event}
    (hkind : n.kind = n'.kind) (hpresence : n.presence = n'.presence)
    (h : outline children = outline children') :
    outline (.start n.kind.tag n.attributes :: (n.inside children ++ Node.ending n.kind)) =
      outline
        (.start n'.kind.tag n'.attributes :: (n'.inside children' ++ Node.ending n'.kind)) := by
  rw [outline, List.filterMap_cons_some (outline?_start n), ← outline, outline_append,
    outline_inside hkind h, hkind, hpresence, ← outline_append, outline,
    ← List.filterMap_cons_some (outline?_start n'), ← outline]

mutual

/-- A node and its outline show the same tags with the same attributes. -/
theorem outline_seen : ∀ n : Node, outline n.outline.seen = outline n.seen
  | ⟨kind, label, style, bind, onClick, children⟩ =>
      outline_element
        ⟨kind, Node.mask (nonEmpty? label), Node.mask style, Node.mask (nonEmpty? bind),
          Node.mask (nonEmpty? onClick), []⟩
        ⟨kind, label, style, bind, onClick, []⟩ rfl (Node.presence_mask ..)
        (outline_seenAll children)

theorem outline_seenAll : ∀ ns : List Node,
    outline (Node.seenAll (Node.outlineAll ns)) = outline (Node.seenAll ns)
  | [] => rfl
  | n :: rest => by
      rw [Node.outlineAll, Node.seenAll, Node.seenAll, outline_append, outline_append,
        outline_seen n, outline_seenAll rest]

end

/-! ## What is read -/

/-- Of the body of a document, a reader sees what there is to be seen of its
nodes: tags that are well nested and carry the texts as they are. Which tags
and attributes these are does not depend on what the texts say. -/
theorem read_body_eq_seenAll (root : Node) :
    read (Markup.render (body root)) = Node.seenAll root.children ∧
      WellNested (read (Markup.render (body root))) ∧
      outline (read (Markup.render (body root))) =
        outline (read (Markup.render (body root.outline))) := by
  have hread (root : Node) :
      read (Markup.render (body root)) = Node.seenAll root.children := by
    rw [read_body, body, eventsAll_elements]
  refine ⟨hread root, ?_, ?_⟩
  · rw [hread]
    exact foldlM_nest_seenAll root.children []
  · rw [hread, hread, Node.children_outline, outline_seenAll]

end Html

end PagePreview
