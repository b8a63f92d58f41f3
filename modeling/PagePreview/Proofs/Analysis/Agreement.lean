/-
PagePreview.Proofs.Analysis.Agreement — where the reading of a document and
its analysis agree.

Where nothing nests too deep and every opening brace follows an element,
the two are in lock step throughout: the blocks of the analysis are the
open nodes of the reading, the root apart (`OpenNodes.Encloses`).

* `OpenNodes.propertyTrace` — the property calls that the reading follows,
  each with the kind of the node that is open at that moment.
* `OpenNodes.propertyTrace_eq_usages` — they are the property calls of the
  analysis, with the kinds of the blocks around them.
* `Creation` — a call and the node that it has created.
* `Document.agrees_with_analysis` — property calls, unclosed blocks and
  unknown calls agree.
-/
import PagePreview.Proofs.Analysis.Braces
import PagePreview.Proofs.Document.Tree

namespace PagePreview

/-! ## Property calls -/

namespace OpenNodes

/-- The property calls among marks that are followed from the open nodes,
each with the kind of the node that is open at that moment. -/
def propertyTrace : OpenNodes → List Document.Mark → List (Property × NodeKind)
  | _, [] => []
  | o, .property p call :: rest =>
    (p, o.innermost.kind) :: propertyTrace (o.apply (.property p call)) rest
  | o, m :: rest => propertyTrace (o.apply m) rest

/-- The kinds of the open nodes, from the inside out. -/
def kinds (o : OpenNodes) : List NodeKind :=
  (o.innermost :: o.outer).map (·.kind)

/-- The blocks are the open nodes, but for the root. -/
def Encloses (o : OpenNodes) (blocks : List NodeKind) : Prop :=
  o.kinds = blocks ++ [.container]

theorem encloses_start : start.Encloses [] := rfl

variable {o : OpenNodes} {blocks : List NodeKind}

theorem Encloses.innermost_kind (h : o.Encloses blocks) :
    o.innermost.kind = Analysis.Mark.innermost blocks := by
  cases blocks with
  | nil => exact (List.cons.inj h).1
  | cons kind blocks => exact (List.cons.inj h).1

theorem kind_annotate (n : Node) (p : Property) (value : String) :
    (n.annotate p value).kind = n.kind := by
  unfold Node.annotate
  split
  · rfl
  · cases p <;> rfl

theorem kinds_annotate (o : OpenNodes) (p : Property) (value : Option String) :
    (o.annotate p value).kinds = o.kinds := by
  cases value with
  | none => rfl
  | some text => simp [annotate, kinds, kind_annotate]

theorem Encloses.leave (h : o.Encloses blocks) : o.leave.Encloses blocks.tail := by
  obtain ⟨inner, outer⟩ := o
  have hlength := congrArg List.length h
  cases outer with
  | nil =>
    cases blocks with
    | nil => exact h
    | cons kind blocks => simp [kinds] at hlength
  | cons parent outer =>
    cases blocks with
    | nil => simp [kinds] at hlength
    | cons kind blocks => exact (List.cons.inj h).2

/-- A mark and its counterparts change the open nodes and the blocks of the
analysis alike. -/
theorem Encloses.apply (h : o.Encloses blocks) (m : Document.Mark) :
    (o.apply m).Encloses (m.counterpart.foldl Analysis.Mark.enclose blocks) := by
  cases m with
  | property p call => exact (kinds_annotate o p _).trans h
  | leaf kind call => exact h
  | opening kind call => exact congrArg (kind :: ·) h
  | closing => exact h.leave
  | problem p => exact h

/-- The reading and the analysis find the same property calls, each in a
block of the same kind. -/
theorem propertyTrace_eq_usages (sourceEnd : Nat) :
    ∀ (marks : List Document.Mark) {o : OpenNodes} {blocks : List NodeKind},
      o.Encloses blocks →
      o.propertyTrace marks =
        (Analysis.usages sourceEnd blocks (marks.flatMap Document.Mark.counterpart)).map
          fun u => (u.property, u.enclosing)
  | [], _, _, _ => rfl
  | .property p call :: rest, o, blocks, h => by
      have hrest := propertyTrace_eq_usages sourceEnd rest (h.apply (.property p call))
      rw [propertyTrace, hrest, h.innermost_kind]
      rfl
  | .leaf kind call :: rest, o, blocks, h =>
      propertyTrace_eq_usages sourceEnd rest (h.apply (.leaf kind call))
  | .opening kind call :: rest, o, blocks, h =>
      propertyTrace_eq_usages sourceEnd rest (h.apply (.opening kind call))
  | .closing :: rest, o, blocks, h =>
      propertyTrace_eq_usages sourceEnd rest (h.apply .closing)
  | .problem p :: rest, o, blocks, h =>
      propertyTrace_eq_usages sourceEnd rest (h.apply (.problem p))

end OpenNodes

/-! ## Unknown calls -/

/-- A call and the node that it has created. -/
abbrev Creation := CallSite × Node

namespace Creation

/-- Whether the call is one that the analysis reports as unknown. -/
def isReported (c : Creation) : Bool :=
  c.2.kind == .unknown && Call.vocabularyStart.toList.isPrefixOf c.1.name.toList

/-- The report on the call. -/
def report (sourceEnd : Nat) (c : Creation) : UnknownCall :=
  ⟨c.1.name, c.1.span sourceEnd⟩

/-- The call is an element, and the node is what the vocabulary makes of
it. -/
structure Fits (c : Creation) : Prop where
  isElement : c.1.IsElement
  heading : c.2.heading = headingOf ((Call.resolve c.1.name).nodeKind, c.1)

end Creation

/-- Nodes that come in the order of their calls are paired with them. -/
theorem exists_creations : ∀ (sites : List (NodeKind × CallSite)) (nodes : List Node),
    (∀ site ∈ sites, site.2.IsElement ∧ site.1 = (Call.resolve site.2.name).nodeKind) →
    nodes.map Node.heading = sites.map headingOf →
    ∃ created : List Creation, created.map (·.1) = sites.map (·.2) ∧
      created.map (·.2) = nodes ∧ ∀ c ∈ created, c.Fits
  | [], [], _, _ => ⟨[], rfl, rfl, by simp⟩
  | [], _ :: _, _, hnodes => by simp at hnodes
  | _ :: _, [], _, hnodes => by simp at hnodes
  | (kind, call) :: sites, n :: nodes, hsites, hnodes => by
      obtain ⟨hnode, hnodes⟩ := List.cons.inj hnodes
      obtain ⟨he, hkind⟩ := hsites (kind, call) (by simp)
      obtain ⟨created, hcalls, hcreated, hfits⟩ :=
        exists_creations sites nodes (fun site hsite => hsites site (by simp [hsite])) hnodes
      refine ⟨(call, n) :: created, by simp [hcalls], by simp [hcreated], ?_⟩
      intro c hc
      rcases List.mem_cons.mp hc with rfl | hc
      · exact ⟨he, hkind ▸ hnode⟩
      · exact hfits c hc

theorem nodeKind_eq_unknown_iff {call : CallSite} (he : call.IsElement) :
    (Call.resolve call.name).nodeKind = .unknown ↔ Call.resolve call.name = .unknown := by
  cases hmeaning : Call.resolve call.name with
  | component kind =>
    have hkind : kind ≠ .unknown := by
      rintro rfl
      exact Call.resolve_ne_component_unknown call.name hmeaning
    simpa [Call.nodeKind] using hkind
  | property p => exact absurd hmeaning (he p)
  | unknown => simp [Call.nodeKind]

/-- The analysis reports a call as unknown for the node that it creates. -/
theorem Creation.Fits.unknownCall?_element {c : Creation} (h : c.Fits) (sourceEnd : Nat) :
    Analysis.Mark.unknownCall? sourceEnd (.element c.1) =
      if c.isReported then some (c.report sourceEnd) else none := by
  have hreport : c.isReported = true ↔
      Call.resolve c.1.name = .unknown ∧ Call.vocabularyStart.toList <+: c.1.name.toList := by
    have hkind : c.2.kind = (Call.resolve c.1.name).nodeKind := (Prod.mk.inj h.heading).1
    rw [Creation.isReported, Bool.and_eq_true, beq_iff_eq, hkind,
      nodeKind_eq_unknown_iff h.isElement, List.isPrefixOf_iff_prefix]
  simp only [Analysis.Mark.unknownCall?, hreport]
  rfl

theorem filterMap_unknownCall?_creations (sourceEnd : Nat) : ∀ created : List Creation,
    (∀ c ∈ created, c.Fits) →
    (created.map (·.1)).filterMap
        (fun call => Analysis.Mark.unknownCall? sourceEnd (.element call)) =
      (created.filter Creation.isReported).map (Creation.report sourceEnd)
  | [], _ => rfl
  | c :: created, hfits => by
      have hrest := filterMap_unknownCall?_creations sourceEnd created
        fun d hd => hfits d (by simp [hd])
      rw [List.map_cons, List.filterMap_cons, (hfits c (by simp)).unknownCall?_element, hrest]
      by_cases hreported : c.isReported = true
      · rw [if_pos hreported, List.filter_cons_of_pos hreported, List.map_cons]
      · rw [if_neg hreported, List.filter_cons_of_neg hreported]

/-- Among the counterparts of marks, only those of calls that create nodes
can be reported as unknown. -/
theorem filterMap_unknownCall?_counterparts (sourceEnd : Nat) :
    ∀ marks : List Document.Mark,
      (marks.flatMap Document.Mark.counterpart).filterMap
          (Analysis.Mark.unknownCall? sourceEnd) =
        ((marks.filterMap Document.Mark.created?).map (·.2)).filterMap
          fun call => Analysis.Mark.unknownCall? sourceEnd (.element call)
  | [] => rfl
  | m :: marks => by
      have hmark : m.counterpart.filterMap (Analysis.Mark.unknownCall? sourceEnd) =
          (m.created?.toList.map (·.2)).filterMap
            fun call => Analysis.Mark.unknownCall? sourceEnd (.element call) := by
        cases m <;> rfl
      rw [List.flatMap_cons, List.filterMap_append, hmark,
        filterMap_unknownCall?_counterparts sourceEnd marks, List.filterMap_cons]
      cases m.created? with
      | none => rfl
      | some site => exact (List.filterMap_append (l := [site.2])).symm

/-! ## Agreement -/

namespace Document

/-- Where nothing nests too deep and every opening brace that is no argument
follows an element, the reading and the analysis agree: on the property
calls and on the kind of the node or block around each of them, on how many
blocks are open at the end, and on the unknown calls, each of which has
created a node of unknown kind of its own. -/
theorem agrees_with_analysis {source : String}
    (hshallow : ∀ p ∈ (parse source).problems, p.fault ≠ .nestingTooDeep)
    (howned : Analysis.Mark.opening none ∉ Analysis.Mark.ofTokens (tokens source)) :
    OpenNodes.start.propertyTrace (Mark.ofTokens source.utf8ByteSize 0 (tokens source)) =
        (Analysis.ofSource source).properties.map (fun u => (u.property, u.enclosing)) ∧
      (parse source).problems.countP (·.fault == .expectedBrace) =
        ((Analysis.Mark.ofTokens (tokens source)).foldl Analysis.Mark.enclose []).length ∧
      ∃ created : List Creation,
        created.map (·.1) =
            ((Mark.ofTokens source.utf8ByteSize 0 (tokens source)).filterMap
              Mark.created?).map (·.2) ∧
          created.map (·.2) = (parse source).root.preorder.tail ∧
          (∀ c ∈ created, c.Fits) ∧
          (Analysis.ofSource source).unknownCalls =
            (created.filter Creation.isReported).map
              (Creation.report source.utf8ByteSize) := by
  have hmarks : Analysis.Mark.ofTokens (tokens source) =
      (Mark.ofTokens source.utf8ByteSize 0 (tokens source)).flatMap Mark.counterpart := by
    rw [← Mark.filter_ofTokens_eq_flatMap_counterpart _ 0 _ (shallow_of_parse hshallow),
      List.filter_eq_self.mpr]
    intro m hm
    simpa using ne_of_mem_of_not_mem hm howned
  refine ⟨?_, ?_, ?_⟩
  · show _ = (Analysis.usages _ [] (Analysis.Mark.ofTokens (tokens source))).map _
    rw [hmarks]
    exact OpenNodes.propertyTrace_eq_usages _ _ OpenNodes.encloses_start
  · rw [Analysis.Mark.length_foldl_enclose, countP_expectedBrace_eq_depth hshallow,
      Mark.filter_ofTokens_eq_flatMap_counterpart _ 0 _ (shallow_of_parse hshallow), ← hmarks]
    rfl
  · -- The nodes come in the order of their calls, so they are paired as they come.
    let sites := (Mark.ofTokens source.utf8ByteSize 0 (tokens source)).filterMap Mark.created?
    have hnodes : (parse source).root.preorder.tail.map Node.heading = sites.map headingOf := by
      rw [List.map_tail]
      exact congrArg List.tail (headings_ofMarks _)
    have hsites : ∀ site ∈ sites,
        site.2.IsElement ∧ site.1 = (Call.resolve site.2.name).nodeKind := by
      rintro ⟨kind, call⟩ hsite
      obtain ⟨m, hm, hcreated⟩ := List.mem_filterMap.mp hsite
      exact Mark.kindFits_ofTokens _ _ _ m hm kind call hcreated
    obtain ⟨created, hcalls, hcreated, hfits⟩ := exists_creations sites _ hsites hnodes
    refine ⟨created, hcalls, hcreated, hfits, ?_⟩
    show (Analysis.Mark.ofTokens (tokens source)).filterMap _ = _
    rw [hmarks, filterMap_unknownCall?_counterparts,
      ← filterMap_unknownCall?_creations _ created hfits, hcalls]

/-- A brace too many, a name without arguments, and a call outside the
vocabulary with neither its arguments nor the block around it closed. -/
def malformed : String :=
  "\x7d wce_row() \x7b wce_bind(\"k\"); x wce_q("

theorem agrees_with_analysis_malformed :
    (∀ p ∈ (parse malformed).problems, p.fault ≠ .nestingTooDeep) ∧
      Analysis.Mark.opening none ∉ Analysis.Mark.ofTokens (tokens malformed) ∧
      OpenNodes.start.propertyTrace
          (Mark.ofTokens malformed.utf8ByteSize 0 (tokens malformed)) = [(.bind, .row)] ∧
      (parse malformed).problems.countP (·.fault == .expectedBrace) = 1 ∧
      ∃ created : List Creation,
        created.map (·.2) = (parse malformed).root.preorder.tail ∧
          (created.filter Creation.isReported).map
            (Creation.report malformed.utf8ByteSize) = [⟨"wce_q", ⟨31, 37⟩⟩] := by
  have hshallow : ∀ p ∈ (parse malformed).problems, p.fault ≠ .nestingTooDeep := by
    have hproblems : (parse malformed).problems =
        [⟨.expectedParenthesis, 37⟩, ⟨.expectedBrace, 37⟩] := by
      cbv
    rw [hproblems]
    decide
  have howned : Analysis.Mark.opening none ∉ Analysis.Mark.ofTokens (tokens malformed) := by
    have hall : (Analysis.Mark.ofTokens (tokens malformed)).all (· ≠ .opening none) = true := by
      cbv
    intro hmem
    exact of_decide_eq_true (List.all_eq_true.mp hall _ hmem) rfl
  obtain ⟨hproperties, hblocks, created, -, hnodes, -, hunknown⟩ :=
    agrees_with_analysis hshallow howned
  refine ⟨hshallow, howned, hproperties.trans ?_, hblocks.trans ?_, created, hnodes,
    hunknown.symm.trans ?_⟩
  · cbv
  · cbv
  · cbv

end Document

end PagePreview
