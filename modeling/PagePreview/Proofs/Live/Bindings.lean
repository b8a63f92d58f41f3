/-
PagePreview.Proofs.Live.Bindings — the bound elements of a page, and those
that the runtime follows.

Two traversals of one tree decide what is bound. The page shows what is
nested in boxes and in nodes of unknown kind (`NodeKind.isBox`) and nothing
that is nested in other nodes; the runtime follows every node. What the
page binds is read off its text here, so that nothing about the page is
taken from the tree.

* `Html.bindings` — the elements with a `wce-bind` attribute, as a reader
  of the page sees them.
* `Node.visible` — the nodes that have an element of their own.
* `Html.bodyBindings_eq` — the page binds the visible nodes that are bound.
* `Node.length_visible_eq_iff` — the runtime follows no more than that
  exactly if no bound node is hidden.
* `View.ofDocument_parse` — the page of a source, and its runtime.
-/
import PagePreview.Live.View
import PagePreview.Proofs.Document.Tree
import PagePreview.Proofs.Html.Body

namespace PagePreview

/-! ## The bound elements of a page -/

namespace Html

/-- What an element with a `wce-bind` attribute says of the value that it
follows. -/
inductive Binding
  /-- It shows the value of the key as a text and says something else until
  then, which may be marked as a hint. -/
  | text (key text : String) (hint : Bool)
  /-- It shows the value of the key in a field. -/
  | editable (key : String)
  /-- It shows the value of the key as a progress bar. -/
  | progress (key : String)
  /-- It is no element that follows a value. -/
  | other (tag key : String)
  deriving Repr, DecidableEq

def attributeValue? (name : String) (attributes : List Attribute) : Option String :=
  (attributes.find? (·.name == name)).map (·.value)

def leadingText : List Event → List Char
  | .char c :: rest => c :: leadingText rest
  | _ => []

/-- The binding of an element, by its tag and what is seen behind it. -/
def binding? (tag : String) (attributes : List Attribute) (rest : List Event) :
    Option Binding :=
  (attributeValue? "wce-bind" attributes).map fun key =>
    if tag = "span" then
      .text key (String.ofList (leadingText rest))
        (attributeValue? "class" attributes == some "bind-hint")
    else if tag = "input" then .editable key
    else if tag = "progress" then .progress key
    else .other tag key

/-- The bindings that are seen, in the order of the elements. -/
def bindings : List Event → List Binding
  | [] => []
  | .start tag attributes :: rest => (binding? tag attributes rest).toList ++ bindings rest
  | .stop _ :: rest => bindings rest
  | .char _ :: rest => bindings rest

end Html

/-- What an element that the runtime follows is taken for. -/
def BoundElement.binding (e : BoundElement) : Html.Binding :=
  match e.kind with
  | .text => .text e.key e.text e.bindHint
  | .editable => .editable e.key
  | .progress => .progress e.key

/-! ## The nodes that are visible -/

/-- Kinds whose element holds the elements of the children. -/
def NodeKind.isBox (kind : NodeKind) : Bool :=
  kind.isStructural || kind == .unknown

namespace Node

mutual

/-- The node and those descendants that have an element of their own,
parents before children. -/
def visible : Node → List Node
  | ⟨kind, label, style, bind, onClick, children⟩ =>
    ⟨kind, label, style, bind, onClick, children⟩ ::
      if kind.isBox then visibleList children else []

def visibleList : List Node → List Node
  | [] => []
  | n :: rest => visible n ++ visibleList rest

end

theorem visibleList_eq (ns : List Node) : visibleList ns = ns.flatMap visible := by
  induction ns with
  | nil => rfl
  | cons n rest ih => rw [visibleList, ih, List.flatMap_cons]

theorem visible_of_isBox {n : Node} (h : n.kind.isBox = true) :
    n.visible = n :: n.children.flatMap visible := by
  cases n
  rw [visible, if_pos h, visibleList_eq]

theorem visible_of_not_isBox {n : Node} (h : n.kind.isBox = false) : n.visible = [n] := by
  cases n
  rw [visible, if_neg (by simpa using h)]

/-- The binding that the page shows for a node. -/
def binding? (n : Node) : Option Html.Binding :=
  (nonEmpty? n.bind).bind fun key =>
    match n.kind with
    | .text => some (.text key ((nonEmpty? n.label).getD "") (nonEmpty? n.label).isNone)
    | .input | .slider => some (.editable key)
    | .progress => some (.progress key)
    | _ => none

/-- The page and the runtime agree on a node whose label is not empty. -/
theorem binding?_eq {n : Node} (h : n.label ≠ some "") :
    n.binding? = (BoundElement.ofNode? n).map BoundElement.binding := by
  have hlabel : nonEmpty? n.label = n.label := by
    cases hl : n.label with
    | none => rfl
    | some text => exact nonEmpty?_eq_some_iff.mpr ⟨rfl, fun htext => h (htext ▸ hl)⟩
  unfold binding? BoundElement.ofNode?
  rw [hlabel]
  cases nonEmpty? n.bind with
  | none => rfl
  | some key =>
    cases n.kind <;> rfl

end Node

/-! ## Reading the bindings of a page -/

namespace Html

@[simp] theorem attributeValue?_nil (name : String) : attributeValue? name [] = none := rfl

@[simp] theorem attributeValue?_cons (name : String) (a : Attribute) (as : List Attribute) :
    attributeValue? name (a :: as) =
      if a.name = name then some a.value else attributeValue? name as := by
  rw [attributeValue?, List.find?_cons]
  by_cases h : a.name = name
  · simp [h]
  · have hne : (a.name == name) = false := by simpa using h
    simp [h, hne, attributeValue?]

@[simp] theorem attributeValue?_append (name : String) (as bs : List Attribute) :
    attributeValue? name (as ++ bs) =
      (attributeValue? name as).or (attributeValue? name bs) := by
  simp [attributeValue?, List.find?_append, Option.map_or]

@[simp] theorem attributeValue?_attribute? (name name' : String) (value : Option String) :
    attributeValue? name (attribute? name' value) = if name' = name then value else none := by
  cases value with
  | none => simp [attribute?]
  | some v => exact attributeValue?_cons name ⟨name', v⟩ []

theorem bindings_chars (rest : List Event) : ∀ s : List Char,
    bindings (s.map .char ++ rest) = bindings rest
  | [] => rfl
  | _ :: s => bindings_chars rest s

theorem leadingText_chars (tag : String) (rest : List Event) : ∀ s : List Char,
    leadingText (s.map .char ++ .stop tag :: rest) = s
  | [] => rfl
  | c :: s => congrArg (c :: ·) (leadingText_chars tag rest s)

theorem bindings_events_element (tag : String) (attributes : List Attribute)
    (content : List Markup) (rest : List Event) :
    bindings ((Markup.element tag attributes content).events ++ rest) =
      (binding? tag attributes (Markup.eventsAll content ++ .stop tag :: rest)).toList ++
        bindings (Markup.eventsAll content ++ .stop tag :: rest) := by
  simp [Markup.events, bindings]

/-- An element without the attribute adds nothing to its content. -/
theorem bindings_events_unbound {tag : String} {attributes : List Attribute}
    {content : List Markup} {rest : List Event}
    (h : attributeValue? "wce-bind" attributes = none) :
    bindings ((Markup.element tag attributes content).events ++ rest) =
      bindings (Markup.eventsAll content ++ .stop tag :: rest) := by
  rw [bindings_events_element, binding?, h]
  rfl

theorem bindings_eventsAll_text (s tag : String) (rest : List Event) :
    bindings (Markup.eventsAll [.text s] ++ .stop tag :: rest) = bindings rest := by
  rw [Markup.eventsAll, Markup.eventsAll, List.append_nil, Markup.events, bindings_chars]
  rfl

variable (n : Node) (rest : List Event)

theorem eventsAll_label :
    Markup.eventsAll ((nonEmpty? n.label).map Markup.text).toList =
      ((nonEmpty? n.label).getD "").toList.map .char := by
  cases nonEmpty? n.label <;> simp [Markup.eventsAll, Markup.events]

theorem bindings_textElement (h : n.kind = .text) :
    bindings ((textElement n).events ++ rest) = n.binding?.toList ++ bindings rest := by
  have hbind : attributeValue? "wce-bind" (hintOf n ++ bindOf n ++ styleOf n) =
      nonEmpty? n.bind := by
    unfold hintOf
    split <;> simp [hint, bindOf, styleOf]
  have hclass : attributeValue? "class" (hintOf n ++ bindOf n ++ styleOf n) =
      if nonEmpty? n.bind ≠ none ∧ nonEmpty? n.label = none then some "bind-hint" else none := by
    unfold hintOf
    split <;> simp [hint, bindOf, styleOf]
  rw [textElement, bindings_events_element, eventsAll_label, bindings_chars, binding?, hbind,
    hclass, leadingText_chars, Node.binding?, h]
  cases nonEmpty? n.bind <;> cases nonEmpty? n.label <;> simp [bindings]

theorem bindings_buttonElement (h : n.kind = .button) :
    bindings ((buttonElement n).events ++ rest) = n.binding?.toList ++ bindings rest := by
  have hbind : attributeValue? "wce-bind"
      (styleOf n ++ attribute? "onclick" ((nonEmpty? n.onClick).map triggerScript)) = none := by
    simp [styleOf]
  rw [buttonElement, bindings_events_unbound hbind, bindings_eventsAll_text, Node.binding?, h]
  cases nonEmpty? n.bind <;> rfl

theorem bindings_inputElement (h : n.kind = .input) :
    bindings ((inputElement n).events ++ rest) = n.binding?.toList ++ bindings rest := by
  have hbind : attributeValue? "wce-bind"
      (⟨"type", "text"⟩ :: styleOf n ++ attribute? "placeholder" (nonEmpty? n.label) ++ bindOf n) =
      nonEmpty? n.bind := by
    simp [bindOf, styleOf]
  rw [inputElement, Markup.events, List.singleton_append, bindings, binding?, hbind, Node.binding?,
    h]
  cases nonEmpty? n.bind <;> rfl

theorem bindings_sliderElement (h : n.kind = .slider) :
    bindings ((sliderElement n).events ++ rest) = n.binding?.toList ++ bindings rest := by
  have hbind : attributeValue? "wce-bind"
      ([⟨"type", "range"⟩, ⟨"min", "0"⟩, ⟨"max", "100"⟩] ++ styleOf n ++ bindOf n) =
      nonEmpty? n.bind := by
    simp [bindOf, styleOf]
  rw [sliderElement, Markup.events, List.singleton_append, bindings, binding?, hbind,
    Node.binding?, h]
  cases nonEmpty? n.bind <;> rfl

theorem bindings_progressElement (h : n.kind = .progress) :
    bindings ((progressElement n).events ++ rest) = n.binding?.toList ++ bindings rest := by
  have hbind : attributeValue? "wce-bind"
      ([⟨"max", "100"⟩, ⟨"value", "0"⟩] ++ styleOf n ++ bindOf n) = nonEmpty? n.bind := by
    simp [bindOf, styleOf]
  rw [progressElement, bindings_events_element, binding?, hbind, Node.binding?, h]
  cases nonEmpty? n.bind <;> rfl

/-- The elements of other nodes than boxes show the binding of the node and
nothing of its children. -/
theorem bindings_element_of_not_isBox (h : n.kind.isBox = false) :
    bindings ((element n).events ++ rest) = n.binding?.toList ++ bindings rest := by
  obtain ⟨kind, label, style, bind, onClick, children⟩ := n
  cases kind with
  | text => exact bindings_textElement ⟨_, label, style, bind, onClick, []⟩ rest rfl
  | button => exact bindings_buttonElement ⟨_, label, style, bind, onClick, []⟩ rest rfl
  | input => exact bindings_inputElement ⟨_, label, style, bind, onClick, []⟩ rest rfl
  | slider => exact bindings_sliderElement ⟨_, label, style, bind, onClick, []⟩ rest rfl
  | progress => exact bindings_progressElement ⟨_, label, style, bind, onClick, []⟩ rest rfl
  | container | row | col | card | panel | unknown => cases h

theorem bindings_boxElement (className : String) (content : List Markup) :
    bindings ((boxElement className n content).events ++ rest) =
      bindings (Markup.eventsAll content ++ .stop "div" :: rest) :=
  bindings_events_unbound (by simp [styleOf])

theorem bindings_unknownNotice : bindings (unknownNotice.events ++ rest) = bindings rest := by
  rw [unknownNotice, bindings_events_unbound (by simp [hint])]
  exact bindings_eventsAll_text _ _ rest

theorem bindings_element_of_isBox (h : n.kind.isBox = true) :
    bindings ((element n).events ++ rest) =
      bindings (Markup.eventsAll (elements n.children) ++ .stop "div" :: rest) := by
  obtain ⟨kind, label, style, bind, onClick, children⟩ := n
  cases kind with
  | text | button | input | slider | progress => cases h
  | container | row | col | card | panel => exact bindings_boxElement _ rest _ (elements children)
  | unknown =>
    rw [element, bindings_boxElement, Markup.eventsAll, List.append_assoc]
    exact bindings_unknownNotice _

theorem binding?_of_isBox (h : n.kind.isBox = true) : n.binding? = none := by
  cases hkind : n.kind <;> simp_all [Node.binding?, NodeKind.isBox, NodeKind.isStructural]

mutual

/-- The element of a node shows the bindings of the visible nodes. -/
theorem bindings_element : ∀ (n : Node) (rest : List Event),
    bindings ((element n).events ++ rest) =
      n.visible.filterMap Node.binding? ++ bindings rest
  | ⟨kind, label, style, bind, onClick, children⟩, rest => by
      have hchildren := bindings_elements children (.stop "div" :: rest)
      cases hbox : kind.isBox with
      | true =>
        rw [Node.visible_of_isBox hbox, List.filterMap_cons_none (binding?_of_isBox _ hbox),
          bindings_element_of_isBox _ rest hbox, hchildren]
        rfl
      | false =>
        rw [Node.visible_of_not_isBox hbox, bindings_element_of_not_isBox _ rest hbox,
          List.filterMap_cons]
        cases Node.binding? _ <;> rfl

theorem bindings_elements : ∀ (ns : List Node) (rest : List Event),
    bindings (Markup.eventsAll (elements ns) ++ rest) =
      (ns.flatMap Node.visible).filterMap Node.binding? ++ bindings rest
  | [], _ => rfl
  | n :: ns, rest => by
      rw [elements, Markup.eventsAll, List.append_assoc, bindings_element n,
        bindings_elements ns, List.flatMap_cons, List.filterMap_append, List.append_assoc]

end

/-- The bindings of the elements in a document's root, read off their text. -/
def bodyBindings (root : Node) : List Binding :=
  bindings (read (Markup.render (body root)))

/-- A page binds what is bound among the visible nodes. -/
theorem bodyBindings_eq {root : Node} (h : root.kind.isBox = true) :
    bodyBindings root = root.visible.filterMap Node.binding? := by
  have hbody := bindings_elements root.children []
  rw [List.append_nil] at hbody
  rw [bodyBindings, read_body, body, hbody, Node.visible_of_isBox h,
    List.filterMap_cons_none (binding?_of_isBox root h)]
  exact List.append_nil _

end Html

/-! ## What is hidden -/

/-- No node that is bound stands in a node that shows nothing of its
children. -/
def Node.HidesNothing (n : Node) : Prop :=
  ∀ m ∈ n.preorder, m.kind.isBox = false →
    ∀ d ∈ m.children.flatMap Node.preorder, BoundElement.ofNode? d = none

namespace Node

mutual

theorem visible_sublist_preorder : ∀ n : Node, n.visible.Sublist n.preorder
  | ⟨kind, label, style, bind, onClick, children⟩ => by
      rw [preorder_eq]
      cases hbox : kind.isBox with
      | true =>
        rw [visible_of_isBox hbox]
        exact (flatMap_visible_sublist children).cons_cons _
      | false =>
        rw [visible_of_not_isBox hbox]
        exact (List.nil_sublist _).cons_cons _

theorem flatMap_visible_sublist : ∀ ns : List Node,
    (ns.flatMap visible).Sublist (ns.flatMap preorder)
  | [] => .slnil
  | n :: ns => (visible_sublist_preorder n).append (flatMap_visible_sublist ns)

end

mutual

/-- What is below a node is below the nodes above it. -/
theorem mem_preorder_trans {m d : Node} (hd : d ∈ m.preorder) :
    ∀ n : Node, m ∈ n.preorder → d ∈ n.preorder
  | ⟨kind, label, style, bind, onClick, children⟩, hm => by
      rw [preorder_eq, List.mem_cons] at hm
      rcases hm with rfl | hm
      · exact hd
      · rw [preorder_eq]
        exact List.mem_cons_of_mem _ (mem_flatMap_preorder_trans hd children hm)

theorem mem_flatMap_preorder_trans {m d : Node} (hd : d ∈ m.preorder) :
    ∀ ns : List Node, m ∈ ns.flatMap preorder → d ∈ ns.flatMap preorder
  | [], hm => by simp at hm
  | n :: ns, hm => by
      rw [List.flatMap_cons, List.mem_append] at hm ⊢
      rcases hm with hm | hm
      · exact .inl (mem_preorder_trans hd n hm)
      · exact .inr (mem_flatMap_preorder_trans hd ns hm)

end

theorem hidesNothing_of_isBox {n : Node} (h : n.kind.isBox = true) :
    n.HidesNothing ↔ ∀ c ∈ n.children, c.HidesNothing := by
  constructor
  · intro hn c hc m hm
    rw [HidesNothing, preorder_eq] at hn
    exact hn m (List.mem_cons_of_mem _ (List.mem_flatMap.mpr ⟨c, hc, hm⟩))
  · intro hchildren m hm hleaf
    rw [preorder_eq, List.mem_cons] at hm
    rcases hm with rfl | hm
    · simp [h] at hleaf
    · obtain ⟨c, hc, hm⟩ := List.mem_flatMap.mp hm
      exact hchildren c hc m hm hleaf

theorem hidesNothing_of_not_isBox {n : Node} (h : n.kind.isBox = false) :
    n.HidesNothing ↔
      ∀ d ∈ n.children.flatMap preorder, BoundElement.ofNode? d = none := by
  constructor
  · intro hn
    exact hn n (by rw [preorder_eq]; exact List.mem_cons_self) h
  · intro hchildren m hm _ d hd
    rw [preorder_eq, List.mem_cons] at hm
    rcases hm with rfl | hm
    · exact hchildren d hd
    · refine hchildren d (mem_flatMap_preorder_trans ?_ _ hm)
      rw [preorder_eq]
      exact List.mem_cons_of_mem _ hd

theorem ofNode?_of_isBox {n : Node} (h : n.kind.isBox = true) :
    BoundElement.ofNode? n = none := by
  cases hkind : n.kind <;>
    simp_all [BoundElement.ofNode?, NodeKind.isBox, NodeKind.isStructural]

mutual

/-- As many visible nodes are bound as nodes at all, exactly if none that is
bound is hidden. -/
theorem length_visible_eq_iff : ∀ n : Node,
    (n.visible.filterMap BoundElement.ofNode?).length =
        (n.preorder.filterMap BoundElement.ofNode?).length ↔
      n.HidesNothing
  | ⟨kind, label, style, bind, onClick, children⟩ => by
      rw [preorder_eq]
      cases hbox : kind.isBox with
      | true =>
        rw [visible_of_isBox hbox, hidesNothing_of_isBox hbox,
          List.filterMap_cons_none (ofNode?_of_isBox hbox),
          List.filterMap_cons_none (ofNode?_of_isBox hbox)]
        exact length_flatMap_visible_eq_iff children
      | false =>
        have hsplit (below : List Node) (n : Node) :
            (n :: below).filterMap BoundElement.ofNode? =
              [n].filterMap BoundElement.ofNode? ++ below.filterMap BoundElement.ofNode? :=
          List.filterMap_append (l := [n])
        rw [visible_of_not_isBox hbox, hidesNothing_of_not_isBox hbox, hsplit (List.flatMap _ _),
          List.length_append, Nat.left_eq_add, List.length_eq_zero_iff, List.filterMap_eq_nil_iff]

theorem length_flatMap_visible_eq_iff : ∀ ns : List Node,
    ((ns.flatMap visible).filterMap BoundElement.ofNode?).length =
        ((ns.flatMap preorder).filterMap BoundElement.ofNode?).length ↔
      ∀ n ∈ ns, n.HidesNothing
  | [] => by simp
  | n :: ns => by
      have hn := ((visible_sublist_preorder n).filterMap BoundElement.ofNode?).length_le
      have hns := ((flatMap_visible_sublist ns).filterMap BoundElement.ofNode?).length_le
      rw [List.forall_mem_cons, ← length_visible_eq_iff n, ← length_flatMap_visible_eq_iff ns,
        List.flatMap_cons, List.flatMap_cons, List.filterMap_append, List.filterMap_append,
        List.length_append, List.length_append]
      omega

end

end Node

/-! ## The page of a source and its runtime -/

theorem Document.label_ne_empty {source : String} {n : Node}
    (h : n ∈ (parse source).root.preorder) : n.label ≠ some "" := by
  have hmem : n.heading ∈ (parse source).root.headings := List.mem_map_of_mem h
  rw [parse, headings_ofMarks, List.mem_cons, List.mem_map] at hmem
  rcases hmem with hroot | ⟨created, -, hcreated⟩
  · have hlabel : n.label = none := congrArg Prod.snd hroot
    simp [hlabel]
  · have hlabel : nonEmpty? created.2.label? = n.label := congrArg Prod.snd hcreated
    intro hempty
    exact (nonEmpty?_eq_some_iff.mp (hlabel.trans hempty)).2 rfl

theorem Document.kind_root (source : String) : (parse source).root.kind = .container := by
  have hroot := headings_ofMarks (Mark.ofTokens source.utf8ByteSize 0 (tokens source))
  rw [Node.headings_eq] at hroot
  exact congrArg Prod.fst (List.cons.inj hroot).1

/-- The page of a source binds the bound elements of the visible nodes. They
are what the runtime follows exactly if no bound node is hidden. -/
theorem View.ofDocument_parse (source : String) :
    Html.bodyBindings (Document.parse source).root =
        ((Document.parse source).root.visible.filterMap BoundElement.ofNode?).map
          BoundElement.binding ∧
      ((View.ofDocument (Document.parse source).root).map BoundElement.binding =
          Html.bodyBindings (Document.parse source).root ↔
        (Document.parse source).root.HidesNothing) := by
  have hvisible := Node.visible_sublist_preorder (Document.parse source).root
  have hbody : Html.bodyBindings (Document.parse source).root =
      ((Document.parse source).root.visible.filterMap BoundElement.ofNode?).map
        BoundElement.binding := by
    have hbox : (Document.parse source).root.kind.isBox = true := by
      rw [Document.kind_root]
      rfl
    have hnodes : (Document.parse source).root.visible.map Node.binding? =
        (Document.parse source).root.visible.map fun n =>
          (BoundElement.ofNode? n).map BoundElement.binding :=
      List.map_congr_left fun n hn =>
        Node.binding?_eq (Document.label_ne_empty (hvisible.subset hn))
    rw [Html.bodyBindings_eq hbox, List.map_filterMap]
    simpa using congrArg (List.filterMap id) hnodes
  refine ⟨hbody, ?_⟩
  rw [hbody, ← Node.length_visible_eq_iff]
  constructor
  · intro heq
    have hlength := congrArg List.length heq
    rw [List.length_map, List.length_map] at hlength
    exact hlength.symm
  · intro hlength
    exact congrArg (List.map BoundElement.binding)
      ((hvisible.filterMap BoundElement.ofNode?).eq_of_length hlength).symm

/-- A text that is bound, in another text. -/
def Document.nestedTexts : String :=
  "wce_text(\"a\") \x7b wce_text() \x7b wce_bind(\"k\"); \x7d \x7d"

theorem View.ofDocument_parse_nestedTexts :
    (View.ofDocument (Document.parse Document.nestedTexts).root).map BoundElement.binding ≠
      Html.bodyBindings (Document.parse Document.nestedTexts).root := by
  have hview : (View.ofDocument (Document.parse Document.nestedTexts).root).map
      BoundElement.binding = [.text "k" "" true] := by
    cbv
  have hbody : Html.bodyBindings (Document.parse Document.nestedTexts).root = [] := by
    cbv
  rw [hview, hbody]
  exact List.cons_ne_nil _ _

end PagePreview
