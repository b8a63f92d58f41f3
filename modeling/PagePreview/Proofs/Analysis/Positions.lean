/-
PagePreview.Proofs.Analysis.Positions — what the analysis points at.

Each call that the analysis reports is a run of words of the source, from
its name to its closing parenthesis, or to the end of the source. The runs
come one behind the other. Cut out of the source, a call is analysed as
itself and as nothing else, and the first text among its arguments is read
as that text.

* `Analysis.Mark.StandsIn` — the words that a mark is made from.
* `Analysis.Mark.pairwise_calls` — the calls come one behind the other.
* `Analysis.relocate_ofSource_span` — a call that is cut out of the source.
* `Analysis.positions_exact` — all of it, for every source.
-/
import PagePreview.Proofs.Analysis.Relocate
import PagePreview.Proofs.Source.Excerpt

namespace PagePreview

namespace Analysis

namespace Mark

/-! ## The words of a mark -/

/-- The call that the mark is made from. -/
def call? : Mark → Option CallSite
  | property _ call => some call
  | element call => some call
  | _ => none

/-- The call stands among the tokens, and its own tokens have this mark and no
other. Nothing is behind a call that is not closed. -/
def StandsIn (ts : List Token) (m : Mark) (call : CallSite) : Prop :=
  ∃ before paren after, ts = before ++ (call.written paren ++ after) ∧
    (call.closing = none → after = []) ∧ ofTokens (call.written paren) = [m]

theorem StandsIn.mono {ts us : List Token} {m : Mark} {call : CallSite} (h : StandsIn us m call)
    (hsuffix : us <:+ ts) : StandsIn ts m call := by
  obtain ⟨before, paren, after, rfl, hend, hmark⟩ := h
  obtain ⟨front, rfl⟩ := hsuffix
  exact ⟨front ++ before, paren, after, by rw [List.append_assoc], hend, hmark⟩

/-- A call that is read stands where it is read. -/
theorem standsIn_of_read? {ts rest : List Token} {m : Mark} {call : CallSite}
    (hread : CallSite.read? ts = some (call, rest))
    (hmark : ∀ us, CallSite.read? us = some (call, []) → ofTokens us = [m]) :
    StandsIn ts m call := by
  obtain ⟨paren, after, rfl, -, hend, hopen⟩ := CallSite.exists_written hread
  have halone : CallSite.read? (call.written paren ++ []) = some (call, []) :=
    CallSite.read?_written paren hopen fun _ => rfl
  rw [List.append_nil] at halone
  exact ⟨[], paren, after, rfl, hend, hmark _ halone⟩

theorem standsIn_property {ts rest : List Token} {p : Property} {call : CallSite}
    (hread : CallSite.read? ts = some (call, rest)) (hp : Call.resolve call.name = .property p) :
    StandsIn ts (property p call) call := by
  refine standsIn_of_read? hread fun us hus => ?_
  rw [ofTokens_property hus hp, ofTokens_nil]

theorem standsIn_element {ts rest : List Token} {call : CallSite}
    (hread : CallSite.read? ts = some (call, rest)) (he : call.IsElement) :
    StandsIn ts (element call) call := by
  refine standsIn_of_read? hread fun us hus => ?_
  rw [ofTokens_leaf hus he rfl, ofTokens_nil]

/-- Every call of the analysis stands among the tokens. -/
theorem standsIn_of_mem {ts : List Token} {m : Mark} {call : CallSite} (hm : m ∈ ofTokens ts)
    (hcall : m.call? = some call) : StandsIn ts m call := by
  induction ts using walk_induction with
  | nil =>
    rw [ofTokens_nil] at hm
    exact nomatch hm
  | property ts p site rest hread hp ih =>
    rw [ofTokens_property hread hp] at hm
    rcases List.mem_cons.mp hm with rfl | hm
    · obtain rfl := Option.some.inj hcall
      exact standsIn_property hread hp
    · exact (ih hm).mono (CallSite.read?_suffix hread)
  | leaf ts site rest hread he hblock ih =>
    rw [ofTokens_leaf hread he hblock] at hm
    rcases List.mem_cons.mp hm with rfl | hm
    · obtain rfl := Option.some.inj hcall
      exact standsIn_element hread he
    · exact (ih hm).mono (CallSite.read?_suffix hread)
  | block ts site rest brace inner hread he hblock ih =>
    rw [ofTokens_block hread he hblock] at hm
    rcases List.mem_cons.mp hm with rfl | hm
    · obtain rfl := Option.some.inj hcall
      exact standsIn_element hread he
    · rcases List.mem_cons.mp hm with rfl | hm
      · exact nomatch hcall
      · exact (ih inner (Nat.le_refl _) hm).mono
          ((openBlock?_suffix hblock).trans (CallSite.read?_suffix hread))
  | opening brace rest ih =>
    rw [ofTokens_opening] at hm
    rcases List.mem_cons.mp hm with rfl | hm
    · exact nomatch hcall
    · exact (ih hm).mono (List.suffix_cons _ rest)
  | closing brace rest ih =>
    rw [ofTokens_closing] at hm
    rcases List.mem_cons.mp hm with rfl | hm
    · exact nomatch hcall
    · exact (ih hm).mono (List.suffix_cons _ rest)
  | other t rest hread hopening hclosing ih =>
    rw [ofTokens_other hread hopening hclosing] at hm
    exact (ih hm).mono (List.suffix_cons t rest)

/-! ## The calls, one behind the other -/

/-- The tokens come one behind the other. -/
def Ordered (ts : List Token) : Prop :=
  ts.Pairwise fun t u => t.span.stop ≤ u.span.start

/-- What follows a call is behind its range. -/
theorem stop_le_of_read? {ts rest : List Token} {call : CallSite} (hts : Ordered ts)
    (hread : CallSite.read? ts = some (call, rest)) (sourceEnd : Nat) :
    ∀ t ∈ rest, (call.span sourceEnd).stop ≤ t.span.start := by
  obtain ⟨paren, after, rfl, rfl, hend, -⟩ := CallSite.exists_written hread
  intro t ht
  have hafter : t ∈ after := (CallSite.dropSemicolon_suffix after).subset ht
  cases hclosing : call.closing with
  | none =>
    rw [hend hclosing] at hafter
    exact nomatch hafter
  | some close =>
    have hlast : ⟨.punct ')', close⟩ ∈ call.written paren := by
      simp [CallSite.written, hclosing]
    have hle := (List.pairwise_append.mp hts).2.2 _ hlast t hafter
    rw [CallSite.span, hclosing]
    exact hle

/-- A call that stands behind a place has its range behind it. -/
theorem StandsIn.le_start {ts : List Token} {m : Mark} {call : CallSite} (h : StandsIn ts m call)
    {offset : Nat} (hts : ∀ t ∈ ts, offset ≤ t.span.start) (sourceEnd : Nat) :
    offset ≤ (call.span sourceEnd).start := by
  obtain ⟨before, paren, after, rfl, -, -⟩ := h
  have hname : ⟨.ident call.name, call.nameSpan⟩ ∈ call.written paren := List.mem_cons_self
  exact hts _ (List.mem_append_right _ (List.mem_append_left _ hname))

/-- The calls come one behind the other if those of the tokens behind the
first call do. -/
theorem pairwise_cons {ts rest us : List Token} {call : CallSite} (hts : Ordered ts)
    (hread : CallSite.read? ts = some (call, rest)) (hus : us <:+ rest) (sourceEnd : Nat)
    (ih : ((ofTokens us).filterMap call?).Pairwise fun c d =>
      (c.span sourceEnd).stop ≤ (d.span sourceEnd).start) :
    (call :: (ofTokens us).filterMap call?).Pairwise fun c d =>
      (c.span sourceEnd).stop ≤ (d.span sourceEnd).start := by
  refine .cons (fun d hd => ?_) ih
  obtain ⟨m, hm, hcall⟩ := List.mem_filterMap.mp hd
  exact ((standsIn_of_mem hm hcall).mono hus).le_start (stop_le_of_read? hts hread sourceEnd)
    sourceEnd

/-- The calls of the analysis come one behind the other. -/
theorem pairwise_calls {ts : List Token} (hts : Ordered ts) (sourceEnd : Nat) :
    ((ofTokens ts).filterMap call?).Pairwise fun c d =>
      (c.span sourceEnd).stop ≤ (d.span sourceEnd).start := by
  have suffix {us vs : List Token} (h : us <:+ vs) : Ordered vs → Ordered us :=
    List.Pairwise.sublist h.sublist
  induction ts using walk_induction with
  | nil =>
    rw [ofTokens_nil]
    exact .nil
  | property ts p call rest hread hp ih =>
    rw [ofTokens_property hread hp]
    exact pairwise_cons hts hread List.suffix_rfl sourceEnd
      (ih (suffix (CallSite.read?_suffix hread) hts))
  | leaf ts call rest hread he hblock ih =>
    rw [ofTokens_leaf hread he hblock]
    exact pairwise_cons hts hread List.suffix_rfl sourceEnd
      (ih (suffix (CallSite.read?_suffix hread) hts))
  | block ts call rest brace inner hread he hblock ih =>
    have hinner := openBlock?_suffix hblock
    rw [ofTokens_block hread he hblock]
    exact pairwise_cons hts hread hinner sourceEnd
      (ih inner (Nat.le_refl _) (suffix (hinner.trans (CallSite.read?_suffix hread)) hts))
  | opening brace rest ih =>
    rw [ofTokens_opening]
    exact ih (suffix (List.suffix_cons _ rest) hts)
  | closing brace rest ih =>
    rw [ofTokens_closing]
    exact ih (suffix (List.suffix_cons _ rest) hts)
  | other t rest hread hopening hclosing ih =>
    rw [ofTokens_other hread hopening hclosing]
    exact ih (suffix (List.suffix_cons t rest) hts)

/-! ## The range of a call -/

/-- The range of a call holds the call and nothing else. Where nothing closes
the call it goes on to the end of the source, and so does its range. -/
theorem StandsIn.holds {source : String} {m : Mark} {call : CallSite}
    (h : StandsIn (tokens source) m call) :
    ∃ paren, (call.span source.utf8ByteSize).Holds source (call.written paren) ∧
      call.written paren ⊆ tokens source ∧ ofTokens (call.written paren) = [m] := by
  obtain ⟨before, paren, after, htokens, hend, hmark⟩ := h
  refine ⟨paren, ?_, ?_, hmark⟩
  · cases hclosing : call.closing with
    | none =>
      rw [hend hclosing, List.append_nil, CallSite.written] at htokens
      rw [CallSite.span, hclosing]
      exact rest_holds htokens
    | some close =>
      have hspan : call.span source.utf8ByteSize = runSpan ⟨.ident call.name, call.nameSpan⟩
          (⟨.punct '(', paren⟩ :: (call.arguments ++ [⟨.punct ')', close⟩])) := by
        rw [runSpan, ← List.cons_append, List.getLast?_concat, CallSite.span, hclosing]
        rfl
      have hwritten : call.written paren = ⟨.ident call.name, call.nameSpan⟩ ::
          ⟨.punct '(', paren⟩ :: (call.arguments ++ [⟨.punct ')', close⟩]) := by
        rw [CallSite.written, hclosing]
        rfl
      rw [hspan, hwritten]
      rw [hwritten] at htokens
      exact runSpan_holds htokens
  · rw [htokens]
    exact List.subset_append_of_subset_right _ (List.subset_append_left _ _)

end Mark

/-- What is found in an excerpt, at its place in the source. -/
theorem relocate_ofSource_excerpt {source : String} {s : Span} {ts : List Token}
    (h : s.Holds source ts) :
    (ofSource (s.excerpt source)).relocate (s.start + ·) =
      ofMarks s.stop (Mark.ofTokens ts) := by
  have hmarks := ofMarks_relocate (s.start + ·) (s.excerpt source).utf8ByteSize
    (Mark.ofTokens (tokens (s.excerpt source)))
  rw [← Mark.ofTokens_relocate, h.tokens, h.size] at hmarks
  exact hmarks.symm

/-- A call that is cut out of the source. -/
theorem relocate_ofSource_span {source : String} {m : Mark} {call : CallSite}
    (hm : m ∈ Mark.ofTokens (tokens source)) (hcall : m.call? = some call) :
    (ofSource ((call.span source.utf8ByteSize).excerpt source)).relocate
        ((call.span source.utf8ByteSize).start + ·) =
      ofMarks (call.span source.utf8ByteSize).stop [m] := by
  obtain ⟨paren, hholds, -, hmark⟩ := (Mark.standsIn_of_mem hm hcall).holds
  rw [relocate_ofSource_excerpt hholds, hmark]

/-! ## What is reported -/

namespace Mark

def isProperty : Mark → Bool
  | property _ _ => true
  | _ => false

/-- The range of the call of the mark, if the call is reported. -/
def reported? (sourceEnd : Nat) : Mark → Option Span
  | property _ call => some (call.span sourceEnd)
  | m => (m.unknownCall? sourceEnd).map (·.span)

end Mark

theorem exists_of_mem_usages {sourceEnd : Nat} {blocks : List NodeKind} {marks : List Mark}
    {u : PropertyUsage} (h : u ∈ usages sourceEnd blocks marks) :
    ∃ p call, Mark.property p call ∈ marks ∧
      u = ⟨p, call.firstText?, call.span sourceEnd, u.enclosing⟩ := by
  induction marks generalizing blocks with
  | nil => exact nomatch h
  | cons m marks ih =>
    cases m with
    | property p call =>
      rcases List.mem_cons.mp h with rfl | h
      · exact ⟨p, call, List.mem_cons_self, rfl⟩
      · obtain ⟨q, other, hmem, hu⟩ := ih h
        exact ⟨q, other, List.mem_cons_of_mem _ hmem, hu⟩
    | _ =>
      obtain ⟨q, other, hmem, hu⟩ := ih h
      exact ⟨q, other, List.mem_cons_of_mem _ hmem, hu⟩

/-- The calls that are reported, property calls first. -/
def callSpans (found : Analysis) : List Span :=
  found.properties.map (·.callSpan) ++ found.unknownCalls.map (·.span)

theorem map_callSpan_usages (sourceEnd : Nat) (blocks : List NodeKind) (marks : List Mark) :
    (usages sourceEnd blocks marks).map (·.callSpan) =
      (marks.filter Mark.isProperty).filterMap (Mark.reported? sourceEnd) := by
  induction marks generalizing blocks with
  | nil => rfl
  | cons m marks ih =>
    cases m with
    | property p call => exact congrArg (call.span sourceEnd :: ·) (ih blocks)
    | element call => exact ih blocks
    | opening owner => exact ih _
    | closing => exact ih _

theorem map_span_unknownCall? (sourceEnd : Nat) (marks : List Mark) :
    (marks.filterMap (Mark.unknownCall? sourceEnd)).map (·.span) =
      (marks.filter (!Mark.isProperty ·)).filterMap (Mark.reported? sourceEnd) := by
  rw [List.map_filterMap, List.filterMap_filter]
  congr 1
  funext m
  cases m <;> rfl

theorem Mark.unknownCall?_eq_some_iff {sourceEnd : Nat} {m : Mark} {c : UnknownCall} :
    m.unknownCall? sourceEnd = some c ↔ ∃ call, m = element call ∧
      (Call.resolve call.name = .unknown ∧
        Call.vocabularyStart.toList <+: call.name.toList) ∧
      c = ⟨call.name, call.span sourceEnd⟩ := by
  cases m with
  | element call => simp [unknownCall?, eq_comm]
  | _ => simp [unknownCall?]

theorem Mark.exists_of_reported? {sourceEnd : Nat} {m : Mark} {s : Span}
    (h : m.reported? sourceEnd = some s) :
    ∃ call, m.call? = some call ∧ s = call.span sourceEnd := by
  cases m with
  | property p call => exact ⟨call, rfl, (Option.some.inj h).symm⟩
  | element call =>
    obtain ⟨c, hc, rfl⟩ := Option.map_eq_some_iff.mp h
    obtain ⟨other, heq, -, rfl⟩ := Mark.unknownCall?_eq_some_iff.mp hc
    obtain rfl := Mark.element.inj heq
    exact ⟨call, rfl, rfl⟩
  | opening owner => exact nomatch h
  | closing => exact nomatch h

/-- The calls that are reported, in source order. -/
def reportedSpans (source : String) : List Span :=
  (Mark.ofTokens (tokens source)).filterMap (Mark.reported? source.utf8ByteSize)

theorem callSpans_perm (source : String) :
    (callSpans (ofSource source)).Perm (reportedSpans source) := by
  rw [callSpans, ofSource, ofMarks, map_callSpan_usages, map_span_unknownCall?,
    ← List.filterMap_append]
  exact (List.filter_append_perm _ _).filterMap _

/-- The calls that are reported come one behind the other. -/
theorem pairwise_reportedSpans (source : String) :
    (reportedSpans source).Pairwise fun s t => s.stop ≤ t.start := by
  have hcalls := Mark.pairwise_calls (pairwise_tokens source) source.utf8ByteSize
  rw [List.pairwise_filterMap] at hcalls
  rw [reportedSpans, List.pairwise_filterMap]
  refine hcalls.imp fun {m n} h s hs t ht => ?_
  obtain ⟨c, hc, rfl⟩ := Mark.exists_of_reported? hs
  obtain ⟨d, hd, rfl⟩ := Mark.exists_of_reported? ht
  exact h c hc d hd

/-- So do those that are left when some are not looked at. -/
theorem pairwise_filter_reported (source : String) (keep : Mark → Bool) :
    (((Mark.ofTokens (tokens source)).filter keep).filterMap
      (Mark.reported? source.utf8ByteSize)).Pairwise fun s t => s.stop ≤ t.start :=
  (pairwise_reportedSpans source).sublist (List.filter_sublist.filterMap _)

theorem pairwise_properties (source : String) :
    (ofSource source).properties.Pairwise fun u v => u.callSpan.stop ≤ v.callSpan.start := by
  have hspans := pairwise_filter_reported source Mark.isProperty
  rw [← map_callSpan_usages _ []] at hspans
  exact List.pairwise_map.mp hspans

theorem pairwise_unknownCalls (source : String) :
    (ofSource source).unknownCalls.Pairwise fun c d => c.span.stop ≤ d.span.start := by
  have hspans := pairwise_filter_reported source (!Mark.isProperty ·)
  rw [← map_span_unknownCall?] at hspans
  exact List.pairwise_map.mp hspans

/-- The calls that are reported have nothing in common. -/
theorem pairwise_callSpans (source : String) :
    (callSpans (ofSource source)).Pairwise Span.Disjoint :=
  (callSpans_perm source).symm.pairwise
    ((pairwise_reportedSpans source).imp Or.inl) fun h => h.symm

/-- The range of every call that is reported can be cut out. -/
theorem within_of_mem_callSpans {source : String} {s : Span}
    (hs : s ∈ callSpans (ofSource source)) : s.Within source := by
  obtain ⟨m, hm, hspan⟩ := List.mem_filterMap.mp ((callSpans_perm source).mem_iff.mp hs)
  obtain ⟨call, hcall, rfl⟩ := Mark.exists_of_reported? hspan
  obtain ⟨paren, hholds, -⟩ := (Mark.standsIn_of_mem hm hcall).holds
  exact hholds.within

/-! ## Excerpts of what is reported -/

/-- A property call that is cut out of the source is found alone, in no
block. -/
theorem relocate_ofSource_callSpan {source : String} {u : PropertyUsage}
    (hu : u ∈ (ofSource source).properties) :
    (ofSource (u.callSpan.excerpt source)).relocate (u.callSpan.start + ·) =
      ⟨[{ u with enclosing := .container }], [], 0⟩ := by
  obtain ⟨p, call, hm, heq⟩ := exists_of_mem_usages hu
  rw [heq, relocate_ofSource_span hm rfl]
  show (⟨[⟨p, call.firstText?, call.span (call.span _).stop, _⟩], [], _⟩ : Analysis) = _
  rw [CallSite.span_stop]
  rfl

theorem relocate_ofSource_unknownCall {source : String} {c : UnknownCall}
    (hc : c ∈ (ofSource source).unknownCalls) :
    (ofSource (c.span.excerpt source)).relocate (c.span.start + ·) = ⟨[], [c], 0⟩ := by
  obtain ⟨m, hm, hunknown⟩ := List.mem_filterMap.mp hc
  obtain ⟨call, rfl, hname, rfl⟩ := Mark.unknownCall?_eq_some_iff.mp hunknown
  have halone : (Mark.element call).unknownCall? (call.span source.utf8ByteSize).stop =
      some ⟨call.name, call.span source.utf8ByteSize⟩ :=
    Mark.unknownCall?_eq_some_iff.mpr ⟨call, rfl, hname, by rw [CallSite.span_stop]⟩
  rw [relocate_ofSource_span hm rfl]
  show (⟨[], [Mark.element call].filterMap _, _⟩ : Analysis) = _
  rw [List.filterMap_cons_some halone]
  rfl

/-- The value of a property is a quoted text, and what is read in its range
is this text and nothing else. -/
theorem value_of_mem_properties {source : String} {u : PropertyUsage}
    (hu : u ∈ (ofSource source).properties) {text : String} {s : Span}
    (hvalue : u.value = some (text, s)) :
    u.callSpan.start ≤ s.start ∧ s.stop ≤ u.callSpan.stop ∧ s.Holds source [⟨.str text, s⟩] ∧
      (s.excerpt source).toList.head? = some '"' := by
  obtain ⟨p, call, hm, heq⟩ := exists_of_mem_usages hu
  obtain ⟨paren, hholds, htokens, -⟩ := (Mark.standsIn_of_mem hm rfl).holds
  rw [heq] at hvalue ⊢
  have hword := CallSite.mem_written_of_firstText? paren hvalue
  have hplace := hholds.encloses hword
  obtain ⟨front, written, after, hcuts, -, hspells⟩ := exists_cuts (htokens hword)
  obtain ⟨body, units, rfl, -⟩ := hspells
  refine ⟨hplace.1, hplace.2, Token.span_holds (htokens hword), ?_⟩
  rw [hcuts.excerpt_eq, String.toList_ofList]
  rfl

/-- Everything that the analysis reports has its exact place. The calls can be
cut out of the source, they have nothing in common, and in either list each
is behind those before it. A call that is cut out is found again, alone and
in no block, and so is the text that is the value of a property. -/
theorem positions_exact (source : String) :
    (∀ s ∈ callSpans (ofSource source), s.Within source) ∧
    (callSpans (ofSource source)).Pairwise Span.Disjoint ∧
    ((ofSource source).properties.Pairwise fun u v => u.callSpan.stop ≤ v.callSpan.start) ∧
    ((ofSource source).unknownCalls.Pairwise fun c d => c.span.stop ≤ d.span.start) ∧
    (∀ u ∈ (ofSource source).properties,
      (ofSource (u.callSpan.excerpt source)).relocate (u.callSpan.start + ·) =
        ⟨[{ u with enclosing := .container }], [], 0⟩) ∧
    (∀ c ∈ (ofSource source).unknownCalls,
      (ofSource (c.span.excerpt source)).relocate (c.span.start + ·) = ⟨[], [c], 0⟩) ∧
    ∀ u ∈ (ofSource source).properties, ∀ text s, u.value = some (text, s) →
      u.callSpan.start ≤ s.start ∧ s.stop ≤ u.callSpan.stop ∧ s.Within source ∧
        (s.excerpt source).toList.head? = some '"' ∧
        (tokens (s.excerpt source)).map (Token.relocate (s.start + ·)) = [⟨.str text, s⟩] := by
  refine ⟨fun s hs => within_of_mem_callSpans hs, pairwise_callSpans source,
    pairwise_properties source, pairwise_unknownCalls source,
    fun u hu => relocate_ofSource_callSpan hu, fun c hc => relocate_ofSource_unknownCall hc,
    fun u hu text s hvalue => ?_⟩
  obtain ⟨hstart, hstop, hholds, hquote⟩ := value_of_mem_properties hu hvalue
  exact ⟨hstart, hstop, hholds.within, hquote, hholds.tokens⟩

end Analysis

end PagePreview
