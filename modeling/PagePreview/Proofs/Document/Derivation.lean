/-
PagePreview.Proofs.Document.Derivation — every derivation is read as what
it denotes.

The tokens of a derived document are read call by call, in step with the
derivation. The marks that the reading notes down are those of the
derivation (`CallTree.marks`), whatever follows, as long as it cannot be
taken for a part of the last call (`Stops`). Following the marks from any
open nodes fills the innermost of them (`CallTree.fill`) and leaves the
others alone.

* `ofTokens_writtenAll` — the tokens of calls are read as their marks.
* `foldl_marksAll` — the marks of calls fill the innermost node.
* `Document.parse_of_derives` — the document of a derivation.
-/
import PagePreview.Document
import PagePreview.Proofs.Document.Grammar
import PagePreview.Proofs.Document.Mark

namespace PagePreview

/-! ## One call -/

namespace CallHead

variable (h : CallHead)

/-- The call as the reading sees it. -/
def site : CallSite :=
  ⟨h.name, h.nameSpan, h.arguments, some h.closeParenthesis⟩

theorem read?_written (rest : List Token) :
    CallSite.read? (h.written ++ rest) = some (h.site, CallSite.dropSemicolon rest) := by
  have hopen : ∀ t ∈ h.arguments, t.isPunct ')' = false := by
    intro t ht
    have hargument := h.isArgument t ht
    simp only [Token.isArgument, Bool.and_eq_true, Bool.not_eq_true'] at hargument
    exact hargument.1.1
  have hclosed : h.site.closing = none → rest = [] := nofun
  exact CallSite.read?_written h.openParenthesis hopen hclosed

theorem not_brace_of_mem_written {t : Token} (ht : t ∈ h.written) :
    t.isPunct '{' = false ∧ t.isPunct '}' = false := by
  simp only [written, List.mem_cons, List.mem_append, List.not_mem_nil, or_false] at ht
  rcases ht with rfl | rfl | ht | rfl
  · exact ⟨rfl, rfl⟩
  · exact ⟨rfl, rfl⟩
  · have hargument := h.isArgument t ht
    simp only [Token.isArgument, Bool.and_eq_true, Bool.not_eq_true'] at hargument
    exact ⟨hargument.1.2, hargument.2⟩
  · exact ⟨rfl, rfl⟩

theorem isElement_site (unnamed : ∀ p : Property, h.name ≠ p.callName) : h.site.IsElement :=
  fun p hp => unnamed p (Call.resolve_eq_property_iff.mp hp)

theorem ofArguments_site (sourceEnd : Nat) :
    Document.Mark.ofArguments sourceEnd h.site = [] := rfl

/-- Both ways to say what the first argument is. -/
theorem nonEmpty?_label?_site : nonEmpty? h.site.label? = h.value? := by
  rw [value?, List.head?_filter]
  rfl

end CallHead

/-! ## What may follow -/

/-- Nothing that would belong to a call in front of it: neither a semicolon
nor an opening brace comes first. -/
def Stops (ts : List Token) : Prop :=
  ∀ t ∈ ts.head?, t.isPunct ';' = false ∧ t.isPunct '{' = false

theorem stops_nil : Stops [] := by
  intro t ht
  simp at ht

theorem stops_closing (brace : Span) (rest : List Token) :
    Stops (⟨.punct '}', brace⟩ :: rest) := by
  intro t ht
  obtain rfl : _ = t := by simpa using ht
  exact ⟨rfl, rfl⟩

theorem stops_written : ∀ (call : CallTree) (rest : List Token), Stops (call.written ++ rest)
  | .property .., _ | .leaf .., _ | .block .., _ => by
      intro t ht
      simp only [CallTree.written, CallHead.written, List.cons_append, List.head?_cons,
        Option.mem_def, Option.some.injEq] at ht
      subst ht
      exact ⟨rfl, rfl⟩

theorem stops_writtenAll {rest : List Token} (h : Stops rest) :
    ∀ calls : List CallTree, Stops (CallTree.writtenAll calls ++ rest)
  | [] => h
  | call :: calls => by
      rw [CallTree.writtenAll, List.append_assoc]
      exact stops_written call _

theorem dropSemicolon_of_stops {ts : List Token} (h : Stops ts) :
    CallSite.dropSemicolon ts = ts := by
  cases ts with
  | nil => rfl
  | cons t rest =>
    have ht := (h t (by simp)).1
    simp [CallSite.dropSemicolon, ht]

theorem dropSemicolon_writtenSemicolon {rest : List Token} (h : Stops rest)
    (semicolon : Option Span) :
    CallSite.dropSemicolon (writtenSemicolon semicolon ++ rest) = rest := by
  cases semicolon with
  | none => exact dropSemicolon_of_stops h
  | some span => rfl

theorem openBlock?_of_stops {ts : List Token} (h : Stops ts) : openBlock? ts = none :=
  openBlock?_eq_none_iff.mpr fun t ht => (h t ht).2

/-! ## The marks of a derivation -/

namespace CallTree

mutual

/-- What the reading notes down for a call that stands inside `depth` open
blocks. -/
def marks (depth : Nat) : CallTree → List Document.Mark
  | property p head _ _ => [.property p head.site]
  | leaf head _ _ => [.leaf head.kind head.site]
  | block head _ openBrace content _ _ =>
    if depth < 256 then
      .opening head.kind head.site :: (marksAll (depth + 1) content ++ [.closing])
    else [.problem ⟨.nestingTooDeep, openBrace.start⟩, .leaf head.kind head.site]

def marksAll (depth : Nat) : List CallTree → List Document.Mark
  | [] => []
  | call :: rest => marks depth call ++ marksAll depth rest

end

end CallTree

/-! ### Blocks that are passed over -/

theorem skipBlock_written_head (depth : Nat) (h : CallHead) (rest : List Token) :
    Document.skipBlock depth (h.written ++ rest) = Document.skipBlock depth rest :=
  Document.skipBlock_append depth _ rest fun _ ht => h.not_brace_of_mem_written ht

theorem skipBlock_writtenSemicolon (depth : Nat) (semicolon : Option Span) (rest : List Token) :
    Document.skipBlock depth (writtenSemicolon semicolon ++ rest) =
      Document.skipBlock depth rest := by
  cases semicolon <;> rfl

mutual

/-- The braces of a call are balanced, so it is passed over whole. -/
theorem skipBlock_written {depth : Nat} (hdepth : 1 ≤ depth) :
    ∀ (call : CallTree) (rest : List Token),
      Document.skipBlock depth (call.written ++ rest) = Document.skipBlock depth rest
  | .property p head named semicolon, rest => by
      rw [CallTree.written, List.append_assoc, skipBlock_written_head, skipBlock_writtenSemicolon]
  | .leaf head unnamed semicolon, rest => by
      rw [CallTree.written, List.append_assoc, skipBlock_written_head, skipBlock_writtenSemicolon]
  | .block head unnamed openBrace content closeBrace semicolon, rest => by
      rw [CallTree.written, List.append_assoc, skipBlock_written_head, List.cons_append,
        Document.skipBlock_opening, List.append_assoc, skipBlock_writtenAll (by omega) content,
        List.cons_append, Document.skipBlock_closing hdepth, skipBlock_writtenSemicolon]

theorem skipBlock_writtenAll {depth : Nat} (hdepth : 1 ≤ depth) :
    ∀ (calls : List CallTree) (rest : List Token),
      Document.skipBlock depth (CallTree.writtenAll calls ++ rest) = Document.skipBlock depth rest
  | [], _ => rfl
  | call :: calls, rest => by
      rw [CallTree.writtenAll, List.append_assoc, skipBlock_written hdepth call,
        skipBlock_writtenAll hdepth calls]

end

/-! ### The reading is in step with the derivation -/

section Reading

variable (sourceEnd : Nat)

theorem ofTokens_writtenSemicolon (depth : Nat) (semicolon : Option Span) (rest : List Token) :
    Document.Mark.ofTokens sourceEnd depth (writtenSemicolon semicolon ++ rest) =
      Document.Mark.ofTokens sourceEnd depth rest := by
  cases semicolon with
  | none => rfl
  | some span => exact Document.Mark.ofTokens_other (CallSite.read?_punct _ _ _) rfl

mutual

theorem ofTokens_written : ∀ (call : CallTree) (depth : Nat) (rest : List Token), Stops rest →
    Document.Mark.ofTokens sourceEnd depth (call.written ++ rest) =
      call.marks depth ++ Document.Mark.ofTokens sourceEnd depth rest
  | .property p head named semicolon, depth, rest, hstops => by
      have hread := head.read?_written (writtenSemicolon semicolon ++ rest)
      rw [dropSemicolon_writtenSemicolon hstops] at hread
      rw [CallTree.written, List.append_assoc,
        Document.Mark.ofTokens_property hread (Call.resolve_eq_property_iff.mpr named)]
      rfl
  | .leaf head unnamed semicolon, depth, rest, hstops => by
      have hread := head.read?_written (writtenSemicolon semicolon ++ rest)
      rw [dropSemicolon_writtenSemicolon hstops] at hread
      rw [CallTree.written, List.append_assoc,
        Document.Mark.ofTokens_leaf hread (head.isElement_site unnamed)
          (openBlock?_of_stops hstops)]
      rfl
  | .block head unnamed openBrace content closeBrace semicolon, depth, rest, hstops => by
      -- The tokens from the opening brace on, and those behind the block.
      let after := writtenSemicolon semicolon ++ rest
      let inner := CallTree.writtenAll content ++ ⟨.punct '}', closeBrace⟩ :: after
      have hwritten : (CallTree.block head unnamed openBrace content closeBrace semicolon).written
          ++ rest = head.written ++ ⟨.punct '{', openBrace⟩ :: inner := by
        simp [CallTree.written, inner, after]
      have hread := head.read?_written (⟨.punct '{', openBrace⟩ :: inner)
      rw [hwritten, Document.Mark.ofTokens_block hread (head.isElement_site unnamed) rfl,
        CallHead.ofArguments_site, CallTree.marks]
      by_cases hdepth : depth < 256
      · have hfits : ¬ Document.depthLimit ≤ depth := by simpa [Document.depthLimit] using hdepth
        rw [if_neg hfits, if_pos hdepth,
          ofTokens_writtenAll content (depth + 1) _ (stops_closing closeBrace after),
          Document.Mark.ofTokens_closing, Nat.add_sub_cancel, ofTokens_writtenSemicolon]
        simp [CallHead.kind, CallHead.site]
      · have hdeep : Document.depthLimit ≤ depth := by simpa [Document.depthLimit] using hdepth
        rw [if_pos hdeep, if_neg hdepth, skipBlock_writtenAll (by omega) content,
          Document.skipBlock_last, ofTokens_writtenSemicolon]
        rfl

/-- The tokens of calls are read as the marks of the calls. -/
theorem ofTokens_writtenAll : ∀ (calls : List CallTree) (depth : Nat) (rest : List Token),
    Stops rest →
    Document.Mark.ofTokens sourceEnd depth (CallTree.writtenAll calls ++ rest) =
      CallTree.marksAll depth calls ++ Document.Mark.ofTokens sourceEnd depth rest
  | [], _, _, _ => rfl
  | call :: calls, depth, rest, hstops => by
      rw [CallTree.writtenAll, CallTree.marksAll, List.append_assoc, List.append_assoc,
        ofTokens_written call depth _ (stops_writtenAll hstops calls),
        ofTokens_writtenAll calls depth rest hstops]

end

end Reading

/-! ## The tree of the marks -/

theorem OpenNodes.annotate_of_none {value : Option String} (h : nonEmpty? value = none)
    (o : OpenNodes) (p : Property) : o.annotate p value = o := by
  cases value with
  | none => rfl
  | some text =>
    have hempty : text = "" := nonEmpty?_eq_none_iff.mp h text rfl
    simp [OpenNodes.annotate, Node.annotate, hempty]

theorem OpenNodes.annotate_of_some {value : Option String} {text : String}
    (h : nonEmpty? value = some text) (o : OpenNodes) (p : Property) :
    o.annotate p value = { o with innermost := o.innermost.annotate p text } := by
  obtain ⟨rfl, -⟩ := nonEmpty?_eq_some_iff.mp h
  rfl

namespace CallTree

theorem lastValue?_nil (p : Property) : lastValue? p [] = none := rfl

theorem lastValue?_cons (p : Property) (call : CallTree) (calls : List CallTree) :
    lastValue? p (call :: calls) = (lastValue? p calls).or (value? p call) := by
  rw [lastValue?, List.filterMap_cons]
  cases value? p call with
  | none => rw [Option.or_none, lastValue?]
  | some value =>
    show ([value] ++ calls.filterMap (value? p)).getLast? = _
    rw [List.getLast?_append]
    rfl

/-- A node with the properties and nodes of further calls. -/
def fill (depth : Nat) (n : Node) (calls : List CallTree) : Node where
  kind := n.kind
  label := n.label
  style := (lastValue? .css calls).or n.style
  bind := (lastValue? .bind calls).or n.bind
  onClick := (lastValue? .onClick calls).or n.onClick
  children := n.children ++ nodes depth calls

theorem fill_nil (depth : Nat) (n : Node) : fill depth n [] = n := by
  cases n
  simp [fill, lastValue?_nil, nodes]

theorem fill_cons (depth : Nat) (n : Node) (call : CallTree) (calls : List CallTree) :
    fill depth n (call :: calls) = fill depth (fill depth n [call]) calls := by
  simp only [fill, lastValue?_cons, lastValue?_nil, nodes, Option.none_or, Option.or_assoc,
    List.append_nil, List.append_assoc]

/-- A property call with a value annotates the node, and any other one
changes nothing. -/
theorem fill_property (depth : Nat) (n : Node) (p : Property) (head : CallHead)
    (named : head.name = p.callName) (semicolon : Option Span) :
    fill depth n [property p head named semicolon] = head.value?.elim n (n.annotate p) := by
  cases n
  cases hvalue : head.value? with
  | none => cases p <;> simp [fill, lastValue?, value?, nodes, node?, hvalue]
  | some text =>
    have htext : text ≠ "" := (nonEmpty?_eq_some_iff.mp hvalue).2
    cases p <;> simp [fill, lastValue?, value?, nodes, node?, hvalue, Node.annotate, htext]

theorem fill_element {depth : Nat} {call : CallTree} {child : Node}
    (hvalue : ∀ p, value? p call = none) (hnode : node? depth call = some child) (n : Node) :
    fill depth n [call] = n.append child := by
  cases n
  simp [fill, lastValue?, hvalue, nodes, hnode, Node.append]

end CallTree

theorem OpenNodes.nodeOf_site (h : CallHead) :
    OpenNodes.nodeOf h.kind h.site = { Node.bare h.kind with label := h.value? } := by
  rw [OpenNodes.nodeOf, h.nonEmpty?_label?_site]

mutual

theorem foldl_marks : ∀ (call : CallTree) (depth : Nat) (o : OpenNodes),
    (call.marks depth).foldl OpenNodes.apply o =
      { o with innermost := CallTree.fill depth o.innermost [call] }
  | .property p head named semicolon, depth, o => by
      rw [CallTree.fill_property]
      show o.annotate p head.site.label? = _
      cases hvalue : head.value? with
      | none =>
        exact OpenNodes.annotate_of_none (by rw [head.nonEmpty?_label?_site, hvalue]) o p
      | some text =>
        exact OpenNodes.annotate_of_some (by rw [head.nonEmpty?_label?_site, hvalue]) o p
  | .leaf head unnamed semicolon, depth, o => by
      rw [CallTree.fill_element (fun _ => rfl) (by rw [CallTree.node?])]
      show o.add (OpenNodes.nodeOf head.kind head.site) = _
      rw [OpenNodes.nodeOf_site]
      rfl
  | .block head unnamed openBrace content closeBrace semicolon, depth, o => by
      by_cases hdepth : depth < 256
      · rw [CallTree.marks, if_pos hdepth, List.foldl_cons, List.foldl_append,
          foldl_marksAll content (depth + 1)]
        show OpenNodes.mk (o.innermost.append _) o.outer = _
        rw [CallTree.fill_element (fun _ => rfl) (by rw [CallTree.node?, if_pos hdepth])]
        simp [OpenNodes.apply, OpenNodes.enter, OpenNodes.nodeOf_site, CallTree.fill, Node.bare]
      · rw [CallTree.marks, if_neg hdepth,
          CallTree.fill_element (fun _ => rfl) (by rw [CallTree.node?, if_neg hdepth])]
        show o.add (OpenNodes.nodeOf head.kind head.site) = _
        rw [OpenNodes.nodeOf_site]
        rfl

/-- The marks of calls fill the innermost node and leave the nodes around
it alone. -/
theorem foldl_marksAll : ∀ (calls : List CallTree) (depth : Nat) (o : OpenNodes),
    (CallTree.marksAll depth calls).foldl OpenNodes.apply o =
      { o with innermost := CallTree.fill depth o.innermost calls }
  | [], depth, o => by
      rw [CallTree.fill_nil]
      rfl
  | call :: calls, depth, o => by
      rw [CallTree.fill_cons depth o.innermost call calls, CallTree.marksAll, List.foldl_append,
        foldl_marks call depth, foldl_marksAll calls depth]

end

/-! ## The problems of the marks -/

mutual

theorem filterMap_problem?_marks : ∀ (call : CallTree) (depth : Nat),
    (call.marks depth).filterMap Document.Mark.problem? =
      (call.tooDeep depth).map fun brace => ⟨.nestingTooDeep, brace.start⟩
  | .property .., _ => rfl
  | .leaf .., _ => rfl
  | .block head unnamed openBrace content closeBrace semicolon, depth => by
      by_cases hdepth : depth < 256
      · rw [CallTree.marks, if_pos hdepth, CallTree.tooDeep, if_pos hdepth, List.filterMap_cons,
          List.filterMap_append, filterMap_problem?_marksAll content (depth + 1)]
        exact List.append_nil _
      · rw [CallTree.marks, if_neg hdepth, CallTree.tooDeep, if_neg hdepth]
        rfl

/-- The problems among the marks of calls are the blocks that nest too
deep. -/
theorem filterMap_problem?_marksAll : ∀ (calls : List CallTree) (depth : Nat),
    (CallTree.marksAll depth calls).filterMap Document.Mark.problem? =
      (CallTree.tooDeepAll depth calls).map fun brace => ⟨.nestingTooDeep, brace.start⟩
  | [], _ => rfl
  | call :: calls, depth => by
      rw [CallTree.marksAll, CallTree.tooDeepAll, List.filterMap_append, List.map_append,
        filterMap_problem?_marks call, filterMap_problem?_marksAll calls]

end

/-! ## The document -/

theorem Document.ofTokens_of_derives {calls : List CallTree} {ts : List Token}
    (h : Derives calls ts) (sourceEnd : Nat) :
    Document.Mark.ofTokens sourceEnd 0 ts = CallTree.marksAll 0 calls := by
  have hread := ofTokens_writtenAll sourceEnd calls 0 [] stops_nil
  rw [List.append_nil, h, Document.Mark.ofTokens_nil] at hread
  simpa using hread

theorem CallTree.fill_root (calls : List CallTree) :
    CallTree.fill 0 Node.root calls = CallTree.document calls := by
  simp [CallTree.fill, CallTree.document, Node.root, Node.bare]

/-- A source whose tokens derive from the grammar is read as the document
that the derivation denotes. Nothing is wrong with it except for blocks
that nest too deep, each of which is reported once, where it opens. -/
theorem Document.parse_of_derives {source : String} {calls : List CallTree}
    (h : Derives calls (tokens source)) :
    (Document.parse source).root = CallTree.document calls ∧
      (Document.parse source).problems.map (fun p => (p.fault.message, p.offset)) =
        (CallTree.tooDeepAll 0 calls).map fun brace => ("Nesting too deep", brace.start) := by
  have hmarks := Document.ofTokens_of_derives h source.utf8ByteSize
  constructor
  · show ((Document.Mark.ofTokens _ 0 _).foldl OpenNodes.apply OpenNodes.start).close = _
    rw [hmarks, foldl_marksAll, ← CallTree.fill_root]
    rfl
  · show ((Document.Mark.ofTokens _ 0 _).filterMap Document.Mark.problem?).map _ = _
    rw [hmarks, filterMap_problem?_marksAll, List.map_map]
    rfl

theorem Document.parse_of_derives_note :
    ∃ calls, Derives calls (tokens "wce_css(\"c\") note(,\"T\") \x7b wce_bind(\"k\"); \x7d;") ∧
      (Document.parse "wce_css(\"c\") note(,\"T\") \x7b wce_bind(\"k\"); \x7d;").root =
        ⟨.container, none, some "c", none, none,
          [⟨.unknown, some "T", none, some "k", none, []⟩]⟩ := by
  let style : CallHead :=
    ⟨"wce_css", ⟨0, 7⟩, ⟨7, 8⟩, [⟨.str "c", ⟨8, 11⟩⟩], ⟨11, 12⟩, by decide⟩
  let note : CallHead :=
    ⟨"note", ⟨13, 17⟩, ⟨17, 18⟩, [⟨.punct ',', ⟨18, 19⟩⟩, ⟨.str "T", ⟨19, 22⟩⟩], ⟨22, 23⟩,
      by decide⟩
  let key : CallHead :=
    ⟨"wce_bind", ⟨26, 34⟩, ⟨34, 35⟩, [⟨.str "k", ⟨35, 38⟩⟩], ⟨38, 39⟩, by decide⟩
  have unnamed : ∀ p : Property, note.name ≠ p.callName := fun p => by cases p <;> decide
  let calls : List CallTree :=
    [.property .css style rfl none,
      .block note unnamed ⟨24, 25⟩ [.property .bind key rfl (some ⟨39, 40⟩)] ⟨41, 42⟩
        (some ⟨42, 43⟩)]
  have h : Derives calls (tokens "wce_css(\"c\") note(,\"T\") \x7b wce_bind(\"k\"); \x7d;") := by
    show CallTree.writtenAll _ = _
    cbv
  exact ⟨calls, h, (Document.parse_of_derives h).1⟩

end PagePreview
