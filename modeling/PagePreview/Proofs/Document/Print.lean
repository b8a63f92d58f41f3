/-
PagePreview.Proofs.Document.Print — every document can be written down
again.

However malformed a source may be, its document is as if written by an
author who knows the grammar: texts that are there are not empty, and
nothing nests too deep. So it can be written down, with the calls for the
properties of a node in front of those for its children, and the text is
read as the same document, with no problem.

* `Node.WellFormed` — what a document is like.
* `Node.source` — a source for a document.
* `Node.exists_content` — the words of a source derive from the grammar, and
  the derivation denotes the document.
* `Document.parse_source_root` — documents are well formed, and are read
  again from their sources.
-/
import PagePreview.Proofs.Document.Invariant
import PagePreview.Proofs.Document.Places
import PagePreview.Proofs.Source.Print

namespace PagePreview

open Document (depthLimit)

/-! ## What a document is like -/

namespace Node

/-- What holds of a node of a document, which stands at the level below the
root: no text is empty, and the last level has nothing but its labels. -/
structure FitsAt (level : Nat) (n : Node) : Prop where
  below : level ≤ depthLimit + 1
  label : n.label ≠ some ""
  style : n.style ≠ some ""
  bind : n.bind ≠ some ""
  onClick : n.onClick ≠ some ""
  last : level = depthLimit + 1 →
    n.style = none ∧ n.bind = none ∧ n.onClick = none ∧ n.children = []

/-- What the root of a document is like. -/
structure WellFormed (root : Node) : Prop where
  kind : root.kind = .container
  label : root.label = none
  nodes : root.Throughout FitsAt 0

theorem FitsAt.annotate {level : Nat} {n : Node} (h : n.FitsAt level) (hlevel : level ≤ depthLimit)
    (p : Property) (value : String) : (n.annotate p value).FitsAt level := by
  have hlast : level ≠ depthLimit + 1 := by omega
  unfold Node.annotate
  split
  · exact h
  · next hvalue =>
    have hsome : some value ≠ some "" := fun heq => hvalue (Option.some.inj heq)
    cases p with
    | css => exact ⟨h.below, h.label, hsome, h.bind, h.onClick, fun heq => absurd heq hlast⟩
    | bind => exact ⟨h.below, h.label, h.style, hsome, h.onClick, fun heq => absurd heq hlast⟩
    | onClick => exact ⟨h.below, h.label, h.style, h.bind, hsome, fun heq => absurd heq hlast⟩

theorem fitsAt_nodeOf {level : Nat} (hlevel : level ≤ depthLimit + 1) (kind : NodeKind)
    (call : CallSite) : (OpenNodes.nodeOf kind call).FitsAt level where
  below := hlevel
  label h := (nonEmpty?_eq_some_iff.mp h).2 rfl
  style := by simp [OpenNodes.nodeOf, bare]
  bind := by simp [OpenNodes.nodeOf, bare]
  onClick := by simp [OpenNodes.nodeOf, bare]
  last _ := ⟨rfl, rfl, rfl, rfl⟩

theorem fitsAt_invariant : NodeInvariant (fun level n => n.FitsAt level) (fun _ _ => True) where
  root := ⟨Nat.zero_le _, by simp [root, bare], by simp [root, bare], by simp [root, bare],
    by simp [root, bare], fun h => nomatch h⟩
  created kind call hlevel := fitsAt_nodeOf hlevel kind call
  annotate p value hlevel _ h := h.annotate hlevel p value
  append child hlevel h := by
    have hlast : _ ≠ depthLimit + 1 := Nat.ne_of_lt (Nat.lt_succ_of_le hlevel)
    exact ⟨h.below, h.label, h.style, h.bind, h.onClick, fun heq => absurd heq hlast⟩

end Node

/-- Every document is well formed. -/
theorem Document.wellFormed_root (source : String) : (parse source).root.WellFormed := by
  have hheading : (parse source).root.heading = (.container, none) := by
    have hheadings := headings_ofMarks (Mark.ofTokens source.utf8ByteSize 0 (tokens source))
    rw [Node.headings_eq] at hheadings
    exact (List.cons.inj hheadings).1
  exact ⟨(Prod.mk.inj hheading).1, (Prod.mk.inj hheading).2,
    Node.fitsAt_invariant.throughout_parse fun _ _ => trivial⟩

/-! ## Writing -/

/-- The name that the vocabulary has for calls that create nodes of a known
kind. -/
def NodeKind.callName (kind : NodeKind) : String :=
  Call.vocabularyStart ++ kind.name

namespace Node

/-- A call with at most one argument. -/
def callWords (name : String) (argument : Option String) : List Lexeme :=
  .ident name :: .punct '(' :: ((argument.map Lexeme.str).toList ++ [.punct ')'])

/-- The call that gives a property, if there is a value. -/
def propertyWords (p : Property) : Option String → List Lexeme
  | none => []
  | some value => callWords p.callName (some value) ++ [.punct ';']

def propertiesWords (style bind onClick : Option String) : List Lexeme :=
  propertyWords .css style ++ propertyWords .bind bind ++ propertyWords .onClick onClick

/-- A block with the content, or a semicolon where there is none. -/
def blockWords : List Lexeme → List Lexeme
  | [] => [.punct ';']
  | l :: ls => .punct '{' :: (l :: ls ++ [.punct '}'])

/-- The call that creates a node of the kind. The vocabulary has none for
nodes of unknown kind. -/
def callName (kind : NodeKind) (unknown : String) : String :=
  if kind = .unknown then unknown else kind.callName

mutual

/-- The words of a node and its descendants. Nodes of unknown kind are named
by the path to them, which goes up to the root and says of each node on the
way which child it is. -/
def words (name : List Nat → String) (path : List Nat) : Node → List Lexeme
  | ⟨kind, label, style, bind, onClick, children⟩ =>
    callWords (callName kind (name path)) label ++
      blockWords (propertiesWords style bind onClick ++ wordsAll name path 0 children)

def wordsAll (name : List Nat → String) (path : List Nat) (index : Nat) :
    List Node → List Lexeme
  | [] => []
  | n :: rest => words name (index :: path) n ++ wordsAll name path (index + 1) rest

end

/-- The words of a document. -/
def sourceWords (name : List Nat → String) (root : Node) : List Lexeme :=
  propertiesWords root.style root.bind root.onClick ++ wordsAll name [] 0 root.children

/-- A source for a document. -/
def source (name : List Nat → String) (root : Node) : String :=
  String.ofList (writeAll (sourceWords name root))

end Node

/-- Names that can be given to nodes of unknown kind: identifiers that are
not in the vocabulary. -/
def NamesUnknown (name : List Nat → String) : Prop :=
  ∀ path, isIdentifier (name path) = true ∧ Call.resolve (name path) = .unknown

theorem isIdentifier_callName (p : Property) : isIdentifier p.callName = true := by
  cases p <;> decide

theorem NodeKind.callName_known {kind : NodeKind} (h : kind ≠ .unknown) :
    isIdentifier kind.callName = true ∧ Call.resolve kind.callName = .component kind := by
  cases kind with
  | unknown => exact absurd rfl h
  | _ => exact ⟨by decide, by decide⟩

section Names

variable {name : List Nat → String} (hname : NamesUnknown name) (kind : NodeKind)
  (path : List Nat)

include hname

theorem NamesUnknown.isIdentifier : isIdentifier (Node.callName kind (name path)) = true := by
  unfold Node.callName
  split
  · exact (hname path).1
  · next hkind => exact (NodeKind.callName_known hkind).1

theorem NamesUnknown.nodeKind :
    (Call.resolve (Node.callName kind (name path))).nodeKind = kind := by
  unfold Node.callName
  split
  · next hkind =>
    rw [(hname path).2, hkind]
    rfl
  · next hkind =>
    rw [(NodeKind.callName_known hkind).2]
    rfl

theorem NamesUnknown.ne_property (p : Property) :
    Node.callName kind (name path) ≠ p.callName := by
  intro heq
  have hresolve := Call.resolve_callName p
  rw [← heq, Node.callName] at hresolve
  split at hresolve
  · exact nomatch (hname path).2.symm.trans hresolve
  · next hkind => exact nomatch (NodeKind.callName_known hkind).2.symm.trans hresolve

end Names

/-! ## Proper words -/

theorem Node.proper_callWords {name : String} (h : isIdentifier name = true)
    (argument : Option String) : ∀ l ∈ callWords name argument, l.Proper := by
  have hopen : (Lexeme.punct '(').Proper := by decide
  have hclose : ∀ l ∈ [Lexeme.punct ')'], l.Proper := by decide
  refine List.forall_mem_cons.mpr ⟨h, List.forall_mem_cons.mpr ⟨hopen, ?_⟩⟩
  cases argument with
  | none => exact hclose
  | some text => exact List.forall_mem_cons.mpr ⟨trivial, hclose⟩

theorem Node.proper_propertyWords (p : Property) (value : Option String) :
    ∀ l ∈ propertyWords p value, l.Proper := by
  have hsemicolon : ∀ l ∈ [Lexeme.punct ';'], l.Proper := by decide
  cases value with
  | none => exact fun l hl => nomatch hl
  | some text =>
    exact List.forall_mem_append.mpr
      ⟨proper_callWords (isIdentifier_callName p) (some text), hsemicolon⟩

theorem Node.proper_blockWords {content : List Lexeme} (h : ∀ l ∈ content, l.Proper) :
    ∀ l ∈ blockWords content, l.Proper := by
  have hsemicolon : ∀ l ∈ [Lexeme.punct ';'], l.Proper := by decide
  have hopen : (Lexeme.punct '{').Proper := by decide
  have hclose : ∀ l ∈ [Lexeme.punct '}'], l.Proper := by decide
  cases content with
  | nil => exact hsemicolon
  | cons l ls =>
    exact List.forall_mem_cons.mpr ⟨hopen, List.forall_mem_append.mpr ⟨h, hclose⟩⟩

theorem Node.proper_propertiesWords (style bind onClick : Option String) :
    ∀ l ∈ propertiesWords style bind onClick, l.Proper :=
  List.forall_mem_append.mpr ⟨List.forall_mem_append.mpr
    ⟨proper_propertyWords .css style, proper_propertyWords .bind bind⟩,
    proper_propertyWords .onClick onClick⟩

mutual

theorem Node.proper_words {name : List Nat → String} (hname : NamesUnknown name) :
    ∀ (path : List Nat) (n : Node), ∀ l ∈ n.words name path, l.Proper
  | path, ⟨kind, label, style, bind, onClick, children⟩ => by
      rw [Node.words]
      have hcall := Node.proper_callWords (hname.isIdentifier kind path) label
      have hcontent := List.forall_mem_append.mpr
        ⟨Node.proper_propertiesWords style bind onClick,
          Node.proper_wordsAll hname path 0 children⟩
      exact List.forall_mem_append.mpr ⟨hcall, Node.proper_blockWords hcontent⟩

theorem Node.proper_wordsAll {name : List Nat → String} (hname : NamesUnknown name) :
    ∀ (path : List Nat) (index : Nat) (ns : List Node),
      ∀ l ∈ Node.wordsAll name path index ns, l.Proper
  | _, _, [] => fun l hl => nomatch hl
  | path, index, n :: rest => by
      rw [Node.wordsAll]
      exact List.forall_mem_append.mpr ⟨Node.proper_words hname (index :: path) n,
        Node.proper_wordsAll hname path (index + 1) rest⟩

end

theorem Node.proper_sourceWords {name : List Nat → String} (hname : NamesUnknown name)
    (root : Node) : ∀ l ∈ root.sourceWords name, l.Proper :=
  List.forall_mem_append.mpr ⟨proper_propertiesWords root.style root.bind root.onClick,
    proper_wordsAll hname [] 0 root.children⟩

/-! ## Derivations -/

/-- A call with at most one argument, standing nowhere. -/
def CallHead.ofCall (name : String) (argument : Option String) : CallHead where
  name := name
  nameSpan := .nowhere
  openParenthesis := .nowhere
  arguments := (argument.map fun text => (Lexeme.str text).token).toList
  closeParenthesis := .nowhere
  isArgument := by cases argument <;> simp [Token.isArgument, Token.isPunct, Lexeme.token]

theorem CallHead.written_ofCall (name : String) (argument : Option String) :
    (ofCall name argument).written = (Node.callWords name argument).map Lexeme.token := by
  cases argument <;> rfl

theorem CallHead.value?_ofCall {argument : Option String} (h : argument ≠ some "")
    (name : String) : (ofCall name argument).value? = argument := by
  cases argument with
  | none => rfl
  | some text =>
    have htext : text ≠ "" := fun heq => h (congrArg some heq)
    exact nonEmpty?_eq_some_iff.mpr ⟨rfl, htext⟩

namespace CallTree

theorem writtenAll_eq_flatMap (calls : List CallTree) :
    writtenAll calls = calls.flatMap written := by
  induction calls with
  | nil => rfl
  | cons call calls ih => rw [writtenAll, ih, List.flatMap_cons]

theorem nodes_eq_flatMap (depth : Nat) (calls : List CallTree) :
    nodes depth calls = calls.flatMap fun call => (node? depth call).toList := by
  induction calls with
  | nil => rfl
  | cons call calls ih => rw [nodes, ih, List.flatMap_cons]

theorem tooDeepAll_eq_flatMap (depth : Nat) (calls : List CallTree) :
    tooDeepAll depth calls = calls.flatMap (tooDeep depth) := by
  induction calls with
  | nil => rfl
  | cons call calls ih => rw [tooDeepAll, ih, List.flatMap_cons]

/-- The calls are a derivation of the words and denote the values and the
nodes, and none of their blocks nests too deep. -/
structure Denotes (calls : List CallTree) (depth : Nat) (words : List Lexeme)
    (values : Property → List String) (ns : List Node) : Prop where
  written : writtenAll calls = words.map Lexeme.token
  values : ∀ p, calls.filterMap (value? p) = values p
  nodes : nodes depth calls = ns
  shallow : tooDeepAll depth calls = []

theorem denotes_nil (depth : Nat) : Denotes [] depth [] (fun _ => []) [] :=
  ⟨rfl, fun _ => rfl, rfl, rfl⟩

variable {calls calls' : List CallTree} {depth : Nat} {words words' : List Lexeme}
  {values values' : Property → List String} {ns ns' : List Node}

theorem Denotes.append (h : Denotes calls depth words values ns)
    (h' : Denotes calls' depth words' values' ns') :
    Denotes (calls ++ calls') depth (words ++ words') (fun p => values p ++ values' p)
      (ns ++ ns') where
  written := by
    rw [writtenAll_eq_flatMap, List.flatMap_append, ← writtenAll_eq_flatMap,
      ← writtenAll_eq_flatMap, h.written, h'.written, List.map_append]
  values p := by rw [List.filterMap_append, h.values, h'.values]
  nodes := by
    rw [nodes_eq_flatMap, List.flatMap_append, ← nodes_eq_flatMap, ← nodes_eq_flatMap, h.nodes,
      h'.nodes]
  shallow := by
    rw [tooDeepAll_eq_flatMap, List.flatMap_append, ← tooDeepAll_eq_flatMap,
      ← tooDeepAll_eq_flatMap, h.shallow, h'.shallow, List.append_nil]

/-- The last value is the only one. -/
theorem Denotes.lastValue?_eq {value : Option String} {p : Property}
    (h : Denotes calls depth words values ns) (hp : values p = value.toList) :
    lastValue? p calls = value := by
  rw [lastValue?, h.values, hp]
  cases value <;> rfl

/-- No calls are written as no words. -/
theorem Denotes.eq_nil_iff (h : Denotes calls depth words values ns) : calls = [] ↔ words = [] := by
  have hlength := congrArg List.length h.written
  constructor
  · rintro rfl
    exact List.eq_nil_of_map_eq_nil h.written.symm
  · rintro rfl
    cases calls with
    | nil => rfl
    | cons call calls =>
      have hhead := h.written
      rw [writtenAll] at hhead
      cases call <;> simp [CallTree.written, CallHead.written] at hhead

/-! ### Properties -/

def ofProperty (p : Property) : Option String → List CallTree
  | none => []
  | some value => [.property p (.ofCall p.callName (some value)) rfl (some .nowhere)]

theorem denotes_ofProperty (depth : Nat) (p : Property) {value : Option String}
    (h : value ≠ some "") :
    Denotes (ofProperty p value) depth (Node.propertyWords p value)
      (fun q => if p = q then value.toList else []) [] := by
  cases value with
  | none => exact ⟨rfl, fun q => by simp [ofProperty], rfl, rfl⟩
  | some text =>
    refine ⟨?_, ?_, rfl, rfl⟩
    · simp only [ofProperty, writtenAll, CallTree.written, CallHead.written_ofCall, List.append_nil,
        Node.propertyWords, List.map_append]
      rfl
    · intro q
      simp only [ofProperty, List.filterMap_cons, value?, CallHead.value?_ofCall h]
      split_ifs <;> rfl

end CallTree

/-- The value of a property. -/
def Node.value? (p : Property) (n : Node) : Option String :=
  match p with
  | .css => n.style
  | .bind => n.bind
  | .onClick => n.onClick

theorem Node.exists_properties {n : Node} {level : Nat} (h : n.FitsAt level) (depth : Nat) :
    ∃ calls, CallTree.Denotes calls depth (propertiesWords n.style n.bind n.onClick)
      (fun p => (n.value? p).toList) [] := by
  have hcalls := ((CallTree.denotes_ofProperty depth .css h.style).append
    (CallTree.denotes_ofProperty depth .bind h.bind)).append
    (CallTree.denotes_ofProperty depth .onClick h.onClick)
  refine ⟨_, hcalls.written, ?_, hcalls.nodes, hcalls.shallow⟩
  intro p
  rw [hcalls.values]
  cases p <;> simp [Node.value?]

/-! ### Nodes -/

section Heads

variable {name : List Nat → String}

/-- The call of a node. -/
def Node.head (name : List Nat → String) (path : List Nat) (n : Node) : CallHead :=
  .ofCall (callName n.kind (name path)) n.label

theorem Node.written_head (path : List Nat) (n : Node) :
    (n.head name path).written =
      (callWords (callName n.kind (name path)) n.label).map Lexeme.token :=
  CallHead.written_ofCall _ _

theorem Node.value?_head {n : Node} (h : n.label ≠ some "") (path : List Nat) :
    (n.head name path).value? = n.label :=
  CallHead.value?_ofCall h _

theorem Node.kind_head (hname : NamesUnknown name) (path : List Nat) (n : Node) :
    (n.head name path).kind = n.kind :=
  hname.nodeKind n.kind path

theorem Node.unnamed_head (hname : NamesUnknown name) (path : List Nat) (n : Node) :
    ∀ p : Property, (n.head name path).name ≠ p.callName :=
  hname.ne_property n.kind path

/-- A node that has only a label is written without a block. -/
theorem Node.exists_leaf (hname : NamesUnknown name) {n : Node} (hlabel : n.label ≠ some "")
    (hvalue : ∀ p, n.value? p = none) (hchildren : n.children = []) (path : List Nat)
    (depth : Nat) :
    ∃ call, CallTree.Denotes [call] depth
      (callWords (callName n.kind (name path)) n.label ++ blockWords []) (fun _ => []) [n] := by
  have hnode : n = { Node.bare n.kind with label := n.label } := by
    obtain ⟨kind, label, style, bind, onClick, children⟩ := n
    obtain rfl : style = none := hvalue .css
    obtain rfl : bind = none := hvalue .bind
    obtain rfl : onClick = none := hvalue .onClick
    obtain rfl : children = [] := hchildren
    rfl
  refine ⟨.leaf (n.head name path) (n.unnamed_head hname path) (some .nowhere), ?_, fun p => rfl,
    ?_, rfl⟩
  · rw [CallTree.writtenAll, CallTree.written, written_head, List.map_append]
    exact List.append_nil _
  · rw [CallTree.nodes, CallTree.node?, kind_head hname, value?_head hlabel, ← hnode]
    rfl

/-- Any other node is written with its content in a block, unless the block
would nest too deep. -/
theorem Node.exists_block (hname : NamesUnknown name) {n : Node} (hlabel : n.label ≠ some "")
    (path : List Nat) {depth : Nat} (hdepth : depth < 256) {content : List CallTree} {l : Lexeme}
    {ls : List Lexeme} (hcontent : CallTree.Denotes content (depth + 1) (l :: ls)
      (fun p => (n.value? p).toList) n.children) :
    ∃ call, CallTree.Denotes [call] depth
      (callWords (callName n.kind (name path)) n.label ++ blockWords (l :: ls)) (fun _ => [])
      [n] := by
  have hvalue (p : Property) : CallTree.lastValue? p content = n.value? p :=
    hcontent.lastValue?_eq rfl
  refine ⟨.block (n.head name path) (n.unnamed_head hname path) .nowhere content .nowhere none, ?_,
    fun p => rfl, ?_, ?_⟩
  · rw [CallTree.writtenAll, CallTree.written, written_head, hcontent.written, blockWords]
    simp [CallTree.writtenAll, writtenSemicolon, Lexeme.token]
  · rw [CallTree.nodes, CallTree.node?, if_pos hdepth, kind_head hname, value?_head hlabel,
      hcontent.nodes, hvalue, hvalue, hvalue]
    cases n
    rfl
  · rw [CallTree.tooDeepAll, CallTree.tooDeep, if_pos hdepth, hcontent.shallow]
    rfl

/-- A node is written as one call, given the calls of its content. -/
theorem Node.exists_call (hname : NamesUnknown name) {n : Node} {depth : Nat}
    (h : n.FitsAt (depth + 1)) (path : List Nat) {content : List CallTree} {words : List Lexeme}
    (hcontent : CallTree.Denotes content (depth + 1) words (fun p => (n.value? p).toList)
      n.children)
    (hlast : depth = depthLimit → words = []) :
    ∃ call, CallTree.Denotes [call] depth
      (callWords (callName n.kind (name path)) n.label ++ blockWords words) (fun _ => []) [n] := by
  cases words with
  | nil =>
    obtain rfl := hcontent.eq_nil_iff.mpr rfl
    have hvalue (p : Property) : n.value? p = none := (hcontent.lastValue?_eq rfl).symm
    exact Node.exists_leaf hname h.label hvalue hcontent.nodes.symm path depth
  | cons l ls =>
    have hbelow : depth ≤ depthLimit := Nat.le_of_succ_le_succ h.below
    have hne : depth ≠ depthLimit := fun heq => List.cons_ne_nil l ls (hlast heq)
    exact Node.exists_block hname h.label path (Nat.lt_of_le_of_ne hbelow hne) hcontent

end Heads

mutual

theorem Node.exists_element {name : List Nat → String} (hname : NamesUnknown name) :
    ∀ (n : Node) (path : List Nat) (depth : Nat), n.Throughout FitsAt (depth + 1) →
      ∃ call, CallTree.Denotes [call] depth (n.words name path) (fun _ => []) [n]
  | ⟨kind, label, style, bind, onClick, children⟩, path, depth, h => by
      obtain ⟨hnode, hchildren⟩ := Node.throughout_iff.mp h
      obtain ⟨properties, hproperties⟩ := Node.exists_properties hnode (depth + 1)
      obtain ⟨elements, helements⟩ :=
        Node.exists_elements hname children path 0 (depth + 1) hchildren
      have hcontent := hproperties.append helements
      simp only [List.append_nil, List.nil_append] at hcontent
      rw [Node.words]
      refine Node.exists_call hname hnode path hcontent ?_
      intro hlast
      obtain ⟨rfl, rfl, rfl, rfl⟩ := hnode.last (congrArg (· + 1) hlast)
      rfl

theorem Node.exists_elements {name : List Nat → String} (hname : NamesUnknown name) :
    ∀ (ns : List Node) (path : List Nat) (index depth : Nat),
      (∀ n ∈ ns, n.Throughout FitsAt (depth + 1)) →
      ∃ calls, CallTree.Denotes calls depth (Node.wordsAll name path index ns) (fun _ => []) ns
  | [], _, _, depth, _ => ⟨[], CallTree.denotes_nil depth⟩
  | n :: rest, path, index, depth, h => by
      obtain ⟨hn, hrest⟩ := List.forall_mem_cons.mp h
      obtain ⟨call, hcall⟩ := Node.exists_element hname n (index :: path) depth hn
      obtain ⟨calls, hcalls⟩ := Node.exists_elements hname rest path (index + 1) depth hrest
      exact ⟨call :: calls, hcall.append hcalls⟩

end

/-- Calls with the content of a root denote the root. -/
theorem CallTree.Denotes.document_eq {calls : List CallTree} {words : List Lexeme} {root : Node}
    (h : Denotes calls 0 words (fun p => (root.value? p).toList) root.children)
    (hkind : root.kind = .container) (hlabel : root.label = none) : document calls = root := by
  have hvalue (p : Property) : lastValue? p calls = root.value? p := h.lastValue?_eq rfl
  obtain ⟨kind, label, style, bind, onClick, children⟩ := root
  obtain rfl : kind = .container := hkind
  obtain rfl : label = none := hlabel
  rw [document, hvalue, hvalue, hvalue, h.nodes]
  rfl

/-- The words of a source for a document derive from the grammar, and the
derivation denotes the content of the document. -/
theorem Node.exists_content {name : List Nat → String} (hname : NamesUnknown name) {root : Node}
    (h : root.WellFormed) :
    ∃ calls, CallTree.Denotes calls 0 (root.sourceWords name) (fun p => (root.value? p).toList)
      root.children := by
  obtain ⟨hnode, hchildren⟩ := Node.throughout_iff.mp h.nodes
  obtain ⟨properties, hproperties⟩ := Node.exists_properties hnode 0
  obtain ⟨elements, helements⟩ := Node.exists_elements hname root.children [] 0 0 hchildren
  have hcontent := hproperties.append helements
  simp only [List.append_nil, List.nil_append] at hcontent
  exact ⟨_, hcontent⟩

/-! ## Reading what is written -/

namespace Document

/-- A well formed document is read from its source, with no problem. -/
theorem parse_source {name : List Nat → String} (hname : NamesUnknown name) {root : Node}
    (h : root.WellFormed) : parse (root.source name) = ⟨root, []⟩ := by
  obtain ⟨calls, hcalls⟩ := Node.exists_content hname h
  have hwords : (tokens (root.source name)).map Token.unplaced =
      (root.sourceWords name).map Lexeme.token := by
    have hlexemes := map_lexeme_tokens_writeAll _ (Node.proper_sourceWords hname root)
    rw [← hlexemes, List.map_map]
    rfl
  have hderives : CallTree.writtenAll calls = (tokens (root.source name)).map Token.unplaced :=
    hcalls.written.trans hwords.symm
  obtain ⟨hroot, hfaults⟩ := parse_of_derives_unplaced hderives
  have hproblems : (parse (root.source name)).problems = [] := by
    rw [hcalls.shallow] at hfaults
    exact List.eq_nil_of_map_eq_nil hfaults
  rw [hcalls.document_eq h.kind h.label] at hroot
  calc
    parse (root.source name) = ⟨(parse (root.source name)).root,
        (parse (root.source name)).problems⟩ := rfl
    _ = ⟨root, []⟩ := by rw [hroot, hproblems]

/-- However malformed a source is, its document is well formed, and it is
read again, with no problem, from a source that is written for it. -/
theorem parse_source_root (source : String) :
    (parse source).root.WellFormed ∧
      ∀ name, NamesUnknown name →
        parse ((parse source).root.source name) = ⟨(parse source).root, []⟩ :=
  ⟨wellFormed_root source, fun _ hname => parse_source hname (wellFormed_root source)⟩

/-- A brace too many, an unknown call with quotes in its label, and a text
with a backslash whose arguments are not closed. -/
def unfinished : String := "\x7d quote(\"a\\\"b\") \x7b wce_css(\"c\") wce_text(\"d\\\\\""

theorem parse_source_root_unfinished :
    (parse unfinished).problems.map (·.fault) = [.expectedParenthesis, .expectedBrace] ∧
      (parse unfinished).root =
        ⟨.container, none, none, none, none, [⟨.unknown, some "a\"b", some "c", none, none,
          [⟨.text, some "d\\", none, none, none, []⟩]⟩]⟩ ∧
      (parse unfinished).root.source (fun _ => "note") =
        "note ( \"a\\\"b\" ) \x7b wce_css ( \"c\" ) ; wce_text ( \"d\\\\\" ) ; \x7d" ∧
      NamesUnknown (fun _ => "note") ∧
      parse "note ( \"a\\\"b\" ) \x7b wce_css ( \"c\" ) ; wce_text ( \"d\\\\\" ) ; \x7d" =
        ⟨(parse unfinished).root, []⟩ := by
  have hroot : (parse unfinished).root =
      ⟨.container, none, none, none, none, [⟨.unknown, some "a\"b", some "c", none, none,
        [⟨.text, some "d\\", none, none, none, []⟩]⟩]⟩ := by
    cbv
  have hsource : (parse unfinished).root.source (fun _ => "note") =
      "note ( \"a\\\"b\" ) \x7b wce_css ( \"c\" ) ; wce_text ( \"d\\\\\" ) ; \x7d" := by
    rw [hroot]
    decide +kernel
  have hnote : isIdentifier "note" = true ∧ Call.resolve "note" = .unknown := by decide
  have hname : NamesUnknown fun _ => "note" := fun _ => hnote
  have hparse := (parse_source_root unfinished).2 _ hname
  rw [hsource] at hparse
  exact ⟨by decide +kernel, hroot, hsource, hname, hparse⟩

end Document

end PagePreview
