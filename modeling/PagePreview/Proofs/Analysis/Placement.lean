/-
PagePreview.Proofs.Analysis.Placement — an author who is told nothing has
put every handler and every key where a node can use it.

The diagnostics go by the block around a property call, as the analysis
sees it, and the tree gives the property to the node that is open. The two
can part where a block follows no element. Such a block is none of the
tree's, so its closing brace closes the element around it too early, and
what stands behind the brace goes to another node than the author is told
of. Outside of every element there is nothing to close, and there such
blocks do no harm.

* `Node.WellPlaced` — a node with a handler or a key is of a kind that can
  use it.
* `Analysis.Mark.BareOutside` — blocks that follow no element stand outside
  of every element.
* `OpenNodes.Alongside` — how the open nodes then go with the blocks.
* `Document.wellPlaced_of_lint` — without problems and diagnostics all
  nodes are well placed.
-/
import PagePreview.Diagnostic
import PagePreview.Proofs.Document.Invariant

namespace PagePreview

/-! ## Properties in their places -/

/-- Nodes of the kind can use the property. -/
def Property.Suits : Property → NodeKind → Prop
  | .css, _ => True
  | .bind, kind => kind.isBindable = true
  | .onClick, kind => kind = .button

namespace Node

/-- The node can use the handler and the key that it has. -/
structure WellPlaced (n : Node) : Prop where
  onClick : n.onClick ≠ none → n.kind = .button
  bind : n.bind ≠ none → n.kind.isBindable = true

theorem WellPlaced.annotate {n : Node} (h : n.WellPlaced) {p : Property} (hp : p.Suits n.kind)
    (value : String) : (n.annotate p value).WellPlaced := by
  unfold Node.annotate
  split
  · exact h
  · cases p with
    | css => exact ⟨h.onClick, h.bind⟩
    | bind => exact ⟨h.onClick, fun _ => hp⟩
    | onClick => exact ⟨fun _ => hp, h.bind⟩

/-- Nodes are well placed if the properties that they are given suit them. -/
theorem wellPlaced_invariant : NodeInvariant (fun _ => WellPlaced) Property.Suits where
  root := ⟨by simp [Node.root, Node.bare], by simp [Node.root, Node.bare]⟩
  created kind call _ :=
    ⟨by simp [OpenNodes.nodeOf, Node.bare], by simp [OpenNodes.nodeOf, Node.bare]⟩
  annotate p value _ hp h := h.annotate hp value
  append child _ h := ⟨h.onClick, h.bind⟩

end Node

/-! ## What the diagnostics say -/

theorem Diagnostic.allowed_of_ofPlacement {allowed : Bool} {finding : Finding} {span : Span}
    (h : ofPlacement allowed finding span = []) : allowed = true := by
  by_contra hnot
  simp [ofPlacement, hnot] at h

/-- Where nothing is reported about a property call, the block around it
suits the property. -/
theorem Diagnostic.suits_of_ofUsage {sourceEnd : Nat} {symbols : ProjectSymbols}
    {u : PropertyUsage} (h : ofUsage sourceEnd symbols u = []) :
    u.property.Suits u.enclosing := by
  unfold ofUsage at h
  cases hp : u.property with
  | css => trivial
  | bind =>
    rw [hp] at h
    exact allowed_of_ofPlacement (List.append_eq_nil_iff.mp h).1
  | onClick =>
    rw [hp] at h
    have hbutton := allowed_of_ofPlacement (List.append_eq_nil_iff.mp h).1
    exact beq_iff_eq.mp hbutton

theorem suits_of_lint {source : String} {symbols : ProjectSymbols}
    (h : lint source symbols = []) :
    ∀ u ∈ (Analysis.ofSource source).properties, u.property.Suits u.enclosing := by
  intro u hu
  have husages := (List.append_eq_nil_iff.mp h).2
  exact Diagnostic.suits_of_ofUsage (List.flatMap_eq_nil_iff.mp husages u hu)

/-! ## Blocks that follow no element -/

namespace Analysis.Mark

/-- The owners of the blocks around what follows a mark, from the inside
out. A block that follows no element has none. -/
def owners (blocks : List (Option NodeKind)) : Mark → List (Option NodeKind)
  | opening owner => owner :: blocks
  | closing => blocks.tail
  | _ => blocks

/-- No block around a block that follows no element has an owner, when the
marks are read inside of blocks with the given owners. -/
def BareOutside (blocks : List (Option NodeKind)) (marks : List Mark) : Prop :=
  ∀ before, before ++ [opening none] <+: marks →
    ∀ owner ∈ before.foldl owners blocks, owner = none

theorem BareOutside.tail {blocks : List (Option NodeKind)} {m : Mark} {marks : List Mark}
    (h : BareOutside blocks (m :: marks)) : BareOutside (owners blocks m) marks := by
  intro before hbefore
  exact h (m :: before) (List.cons_prefix_cons.mpr ⟨rfl, hbefore⟩)

theorem BareOutside.head {blocks : List (Option NodeKind)} {marks : List Mark}
    (h : BareOutside blocks (opening none :: marks)) : ∀ owner ∈ blocks, owner = none :=
  h [] (List.cons_prefix_cons.mpr ⟨rfl, List.nil_prefix⟩)

theorem bareOutside_nil (blocks : List (Option NodeKind)) : BareOutside blocks [] := by
  intro before hbefore
  simp at hbefore

theorem bareOutside_cons {blocks : List (Option NodeKind)} {m : Mark} {marks : List Mark} :
    BareOutside blocks (m :: marks) ↔
      (m = opening none → ∀ owner ∈ blocks, owner = none) ∧
        BareOutside (owners blocks m) marks := by
  constructor
  · intro h
    refine ⟨?_, h.tail⟩
    rintro rfl
    exact h.head
  · rintro ⟨hhead, htail⟩ before hbefore
    cases before with
    | nil => exact hhead (List.cons_prefix_cons.mp hbefore).1.symm
    | cons m' before =>
      obtain ⟨rfl, hrest⟩ := List.cons_prefix_cons.mp hbefore
      exact htail before hrest

instance decidableBareOutside : ∀ (blocks : List (Option NodeKind)) (marks : List Mark),
    Decidable (BareOutside blocks marks)
  | blocks, [] => isTrue (bareOutside_nil blocks)
  | blocks, m :: marks =>
    have := decidableBareOutside (owners blocks m) marks
    decidable_of_iff _ bareOutside_cons.symm

end Analysis.Mark

/-! ## Open nodes and blocks -/

namespace OpenNodes

/-- Inside of the blocks that follow no element come the blocks of the
elements that are open. -/
structure Alongside (o : OpenNodes) (elements : List NodeKind) (bare : Nat)
    (blocks : List NodeKind) (owners : List (Option NodeKind)) : Prop where
  encloses : o.Encloses elements
  blocks : blocks = elements ++ List.replicate bare .container
  owners : owners = elements.map some ++ List.replicate bare none

variable {o : OpenNodes} {elements : List NodeKind} {bare : Nat} {blocks : List NodeKind}
  {owners : List (Option NodeKind)}

theorem Alongside.innermost_kind (h : o.Alongside elements bare blocks owners) :
    o.innermost.kind = Analysis.Mark.innermost blocks := by
  rw [h.encloses.innermost_kind, h.blocks]
  cases elements with
  | nil => cases bare <;> rfl
  | cons kind elements => rfl

/-- A mark that neither opens nor closes a node. -/
theorem Alongside.of_kinds {o' : OpenNodes} (h : o.Alongside elements bare blocks owners)
    (hkinds : o'.kinds = o.kinds) : o'.Alongside elements bare blocks owners :=
  ⟨hkinds.trans h.encloses, h.blocks, h.owners⟩

theorem Alongside.enter (h : o.Alongside elements bare blocks owners) (n : Node) :
    (o.enter n).Alongside (n.kind :: elements) bare (n.kind :: blocks) (some n.kind :: owners) :=
  ⟨congrArg (n.kind :: ·) h.encloses, congrArg (n.kind :: ·) h.blocks,
    congrArg (some n.kind :: ·) h.owners⟩

/-- A closing brace closes an element, or else a block that follows none,
if anything is open. -/
theorem Alongside.leave (h : o.Alongside elements bare blocks owners) :
    ∃ elements' bare', o.leave.Alongside elements' bare' blocks.tail owners.tail := by
  have hleave := h.encloses.leave
  rw [h.blocks, h.owners]
  cases elements with
  | nil => exact ⟨[], bare - 1, hleave, by simp, by simp⟩
  | cons kind elements => exact ⟨elements, bare, hleave, rfl, rfl⟩

/-- A block that follows no element, outside of every element. -/
theorem Alongside.enterBare (h : o.Alongside elements bare blocks owners)
    (houtside : ∀ owner ∈ owners, owner = none) :
    o.Alongside [] (bare + 1) (Analysis.Mark.innermost blocks :: blocks) (none :: owners) := by
  obtain rfl : elements = [] := by
    cases elements with
    | nil => rfl
    | cons kind elements =>
      have hnone := houtside (some kind) (by simp [h.owners])
      cases hnone
  refine ⟨h.encloses, ?_, ?_⟩
  · rw [← h.innermost_kind, h.encloses.innermost_kind, h.blocks]
    rfl
  · rw [h.owners]
    rfl

theorem propertyTrace_replicate (n : Nat) (p : Problem) (o : OpenNodes) :
    o.propertyTrace (List.replicate n (.problem p)) = [] := by
  induction n with
  | zero => rfl
  | succ n ih => exact ih

/-- The reading and the analysis find the same property calls in blocks of
the same kinds, where blocks that follow no element stand outside of every
element. -/
theorem propertyTrace_eq_usages_of_bareOutside (sourceEnd depth : Nat) (ts : List Token)
    (hshallow : Document.Mark.Shallow (Document.Mark.ofTokens sourceEnd depth ts))
    (hbare : Analysis.Mark.BareOutside owners (Analysis.Mark.ofTokens ts))
    (h : o.Alongside elements bare blocks owners) :
    o.propertyTrace (Document.Mark.ofTokens sourceEnd depth ts) =
      (Analysis.usages sourceEnd blocks (Analysis.Mark.ofTokens ts)).map
        fun u => (u.property, u.enclosing) := by
  induction ts using walk_induction generalizing depth o elements bare blocks owners with
  | nil =>
    rw [Document.Mark.ofTokens_nil, Analysis.Mark.ofTokens_nil, propertyTrace_replicate]
    rfl
  | property ts p call rest hread hp ih =>
    rw [Document.Mark.ofTokens_property hread hp] at hshallow ⊢
    rw [Analysis.Mark.ofTokens_property hread hp] at hbare ⊢
    have hrest := ih depth hshallow.of_append.of_cons hbare.tail
      (h.of_kinds (kinds_annotate o p call.label?))
    rw [propertyTrace_ofArguments_append, propertyTrace, h.innermost_kind]
    exact congrArg _ hrest
  | leaf ts call rest hread he hblock ih =>
    rw [Document.Mark.ofTokens_leaf hread he hblock] at hshallow ⊢
    rw [Analysis.Mark.ofTokens_leaf hread he hblock] at hbare ⊢
    rw [propertyTrace_ofArguments_append]
    exact ih depth hshallow.of_append.of_cons hbare.tail (h.of_kinds rfl)
  | block ts call rest brace inner hread he hblock ih =>
    rw [Document.Mark.ofTokens_block hread he hblock] at hshallow ⊢
    rw [Analysis.Mark.ofTokens_block hread he hblock] at hbare ⊢
    rw [propertyTrace_ofArguments_append]
    split_ifs at hshallow ⊢ with hdeep
    · exact absurd rfl (hshallow _ (List.mem_append_right _ List.mem_cons_self))
    · exact ih inner (Nat.le_refl _) (depth + 1) hshallow.of_append.of_cons hbare.tail.tail
        (h.enter (nodeOf _ call))
  | opening brace rest ih =>
    rw [Document.Mark.ofTokens_opening] at hshallow ⊢
    rw [Analysis.Mark.ofTokens_opening] at hbare ⊢
    exact ih depth hshallow hbare.tail (h.enterBare hbare.head)
  | closing brace rest ih =>
    rw [Document.Mark.ofTokens_closing] at hshallow ⊢
    rw [Analysis.Mark.ofTokens_closing] at hbare ⊢
    obtain ⟨elements', bare', hleave⟩ := h.leave
    exact ih (depth - 1) hshallow.of_cons hbare.tail hleave
  | other t rest hread hopening hclosing ih =>
    rw [Document.Mark.ofTokens_other hread hclosing] at hshallow ⊢
    rw [Analysis.Mark.ofTokens_other hread hopening hclosing] at hbare ⊢
    exact ih depth hshallow hbare h

end OpenNodes

/-! ## Documents without diagnostics -/

namespace Document

/-- If there are no problems and no diagnostics, and blocks that follow no
element stand outside of every element, only buttons have handlers, and
only nodes that can follow a value have keys. -/
theorem wellPlaced_of_lint {source : String} {symbols : ProjectSymbols}
    (hproblems : (parse source).problems = []) (hlint : lint source symbols = [])
    (hbare : Analysis.Mark.BareOutside [] (Analysis.Mark.ofTokens (tokens source))) :
    ∀ n ∈ (parse source).root.preorder,
      (n.onClick ≠ none → n.kind = .button) ∧
        (n.bind ≠ none → n.kind ∈ [.text, .input, .slider, .progress]) := by
  have hshallow : Mark.Shallow (Mark.ofTokens source.utf8ByteSize 0 (tokens source)) :=
    shallow_of_parse (by simp [hproblems])
  have hstart : OpenNodes.start.Alongside [] 0 [] [] := ⟨rfl, rfl, rfl⟩
  have htrace := OpenNodes.propertyTrace_eq_usages_of_bareOutside source.utf8ByteSize 0 _ hshallow
    hbare hstart
  have hsuits : ∀ x ∈ OpenNodes.start.propertyTrace
      (Mark.ofTokens source.utf8ByteSize 0 (tokens source)), x.1.Suits x.2 := by
    intro x hx
    rw [htrace] at hx
    obtain ⟨u, hu, rfl⟩ := List.mem_map.mp hx
    exact suits_of_lint hlint u hu
  intro n hn
  obtain ⟨x, hx, rfl⟩ := List.mem_map.mp hn
  have hplaced := Node.wellPlaced_invariant.throughout_parse hsuits x hx
  refine ⟨hplaced.onClick, fun hbind => ?_⟩
  have hbindable := hplaced.bind hbind
  cases hkind : x.2.kind <;> simp_all [NodeKind.isBindable]

/-- Outside of every element, a block on its own and one behind a property
call. -/
def bareOutside : String :=
  "\x7b wce_css(\"c\") \x7b x \x7d wce_text() \x7b wce_bind(\"k\"); \x7d \x7d " ++
    "wce_button() \x7b wce_on_click(\"h\"); \x7d"

theorem wellPlaced_of_lint_bareOutside :
    (parse bareOutside).problems = [] ∧ lint bareOutside .none = [] ∧
      Analysis.Mark.BareOutside [] (Analysis.Mark.ofTokens (tokens bareOutside)) ∧
      (parse bareOutside).root.preorder.map (·.kind) = [.container, .text, .button] ∧
      (parse bareOutside).root.preorder.map (·.onClick) = [none, none, some "h"] ∧
      ∀ n ∈ (parse bareOutside).root.preorder,
        (n.onClick ≠ none → n.kind = .button) ∧
          (n.bind ≠ none → n.kind ∈ [.text, .input, .slider, .progress]) := by
  have hproblems : (parse bareOutside).problems = [] := by decide +kernel
  have hlint : lint bareOutside .none = [] := by decide +kernel
  have hbare : Analysis.Mark.BareOutside [] (Analysis.Mark.ofTokens (tokens bareOutside)) := by
    decide +kernel
  exact ⟨hproblems, hlint, hbare, by decide +kernel, by decide +kernel,
    wellPlaced_of_lint hproblems hlint hbare⟩

/-- In a button, a block that follows no element. -/
def bareInside : String := "wce_button() \x7b \x7b \x7d wce_on_click(\"x\"); \x7d"

/-- There the handler of the button goes to the root. -/
theorem wellPlaced_of_lint_bareInside :
    (parse bareInside).problems = [] ∧ lint bareInside .none = [] ∧
      (parse bareInside).root.kind = .container ∧
      (parse bareInside).root.onClick = some "x" := by
  refine ⟨?_, ?_, ?_, ?_⟩
  · decide +kernel
  · decide +kernel
  · decide +kernel
  · decide +kernel

end Document

end PagePreview
