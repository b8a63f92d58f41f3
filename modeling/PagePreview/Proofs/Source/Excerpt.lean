/-
PagePreview.Proofs.Source.Excerpt — words that are cut out of a source.

A run of words can be cut out of a source from the start of the first to the
end of the last, or to the end of the source if they are the last ones. Read
on their own they are the same words, at places that count from the start of
the first.

* `Span.Holds` — what a range holds when it is cut out.
* `runSpan_holds` — a run of words that is cut out behind the last.
* `rest_holds` — the last words of a source.
-/
import PagePreview.Proofs.Source.Relocate
import PagePreview.Proofs.Source.Tiling

namespace PagePreview

/-! ## Pieces and their tokens -/

theorem placePieces_relocate (start offset : Nat) (ps : List Piece) :
    (placePieces offset ps).map (Token.relocate (start + ·)) = placePieces (start + offset) ps := by
  induction ps generalizing offset with
  | nil => rfl
  | cons p ps ih =>
    rw [placePieces, List.map_cons, ih]
    simp only [placePieces, Token.relocate, Span.relocate, Nat.add_assoc]

/-- Where tokens are cut, the pieces are. -/
theorem exists_of_placePieces_eq_append {offset : Nat} {ps : List Piece} {ts us : List Token}
    (h : placePieces offset ps = ts ++ us) :
    ∃ qs rs, ps = qs ++ rs ∧ placePieces offset qs = ts ∧
      placePieces (offset + utf8Length (textOf qs)) rs = us := by
  induction ts generalizing offset ps with
  | nil => exact ⟨[], ps, rfl, rfl, h⟩
  | cons t ts ih =>
    cases ps with
    | nil => exact nomatch h
    | cons p ps =>
      obtain ⟨rfl, hrest⟩ := List.cons.inj h
      obtain ⟨qs, rs, rfl, rfl, hrs⟩ := ih hrest
      refine ⟨p :: qs, rs, rfl, rfl, ?_⟩
      simpa only [textOf_cons, Piece.text, utf8Length_append, Nat.add_assoc] using hrs

/-- The last of some tokens ends where their text does. -/
theorem stop_getLast_placePieces {offset : Nat} (first : Token) (hfirst : first.span.stop = offset)
    (ps : List Piece) :
    ((placePieces offset ps).getLast?.getD first).span.stop = offset + utf8Length (textOf ps) := by
  induction ps generalizing offset first with
  | nil => exact hfirst
  | cons p ps ih =>
    have hlast := ih ⟨p.lexeme, ⟨offset + utf8Length p.gap,
      offset + utf8Length p.gap + utf8Length p.written⟩⟩ rfl
    rw [placePieces, List.getLast?_cons, Option.getD_some, hlast, textOf_cons, Piece.text]
    simp only [utf8Length_append, Nat.add_assoc]

/-! ## Excerpts -/

/-- The range from the start of a word to the end of the last of those that
follow it. -/
def runSpan (first : Token) (others : List Token) : Span :=
  ⟨first.span.start, (others.getLast?.getD first).span.stop⟩

/-- Where a run of words stands, and what is read there: pieces with no gap
in front of them. Behind the last words there is a gap at most. -/
theorem exists_run {source : String} {before others after : List Token} {first : Token}
    (h : tokens source = before ++ first :: (others ++ after)) :
    ∃ (front : List Char) (ps : List Piece) (rest : List Char),
      (runSpan first others).Cuts source front (textOf ps) rest ∧ textOf ps ≠ [] ∧
      placePieces (utf8Length front) ps = first :: others ∧
      pieces (textOf ps) = (ps, []) ∧
      (after = [] → pieces (textOf ps ++ rest) = (ps, rest)) := by
  obtain ⟨qs, rs, hps, -, hrs⟩ := exists_of_placePieces_eq_append h
  cases rs with
  | nil => exact absurd hrs.symm (List.cons_ne_nil _ _)
  | cons p rs =>
    rw [placePieces, Nat.zero_add] at hrs
    obtain ⟨hfirst, hothers⟩ := List.cons.inj hrs
    obtain ⟨ms, zs, rfl, hms, hzs⟩ := exists_of_placePieces_eq_append hothers
    obtain ⟨rest, hsource, hrun, hlast⟩ := pieces_run hps
    have hplaced : placePieces (utf8Length (textOf qs ++ p.gap)) (p.word :: ms) =
        first :: others := by
      rw [← hfirst, ← hms, utf8Length_append]
      rfl
    have hstop := stop_getLast_placePieces first (congrArg (·.span.stop) hfirst.symm) ms
    rw [hms] at hstop
    refine ⟨_, _, rest, ⟨hsource, ?_, ?_⟩, List.cons_ne_nil _ _, hplaced, hrun, ?_⟩
    · rw [runSpan, ← hfirst, utf8Length_append]
    · rw [runSpan, hstop, textOf_cons, utf8Length_append, utf8Length_append, Nat.add_assoc]
      rfl
    · rintro rfl
      cases zs with
      | nil => exact hlast rfl
      | cons z zs => exact absurd hzs (List.cons_ne_nil _ _)

/-- The range can be cut out of the source, and what is cut out has the words
when it is read on its own. Their places count from the start of the range. -/
structure Span.Holds (s : Span) (source : String) (ts : List Token) : Prop where
  within : s.Within source
  size : s.start + (s.excerpt source).utf8ByteSize = s.stop
  tokens : (tokens (s.excerpt source)).map (Token.relocate (s.start + ·)) = ts

/-- The words that a range holds stand in it. -/
theorem Span.Holds.encloses {s : Span} {source : String} {ts : List Token}
    (h : s.Holds source ts) {t : Token} (ht : t ∈ ts) :
    s.start ≤ t.span.start ∧ t.span.stop ≤ s.stop := by
  rw [← h.tokens] at ht
  obtain ⟨u, hu, rfl⟩ := List.mem_map.mp ht
  have hle := (within_of_mem_tokens hu).stop_le
  have hsize := h.size
  exact ⟨Nat.le_add_right _ _, show s.start + u.span.stop ≤ s.stop by omega⟩

theorem Span.Cuts.holds {s : Span} {source : String} {before text after : List Char}
    {ps : List Piece} {gap : List Char} (h : s.Cuts source before text after) (hne : text ≠ [])
    (hpieces : pieces text = (ps, gap)) :
    s.Holds source (placePieces (utf8Length before) ps) := by
  refine ⟨h.within hne, h.start_add_utf8ByteSize, ?_⟩
  rw [h.excerpt_eq, PagePreview.tokens, String.toList_ofList, hpieces, h.start_eq,
    placePieces_relocate]
  rfl

/-- A run of words that is cut out of the source behind the last of them. -/
theorem runSpan_holds {source : String} {before others after : List Token} {first : Token}
    (h : tokens source = before ++ first :: (others ++ after)) :
    (runSpan first others).Holds source (first :: others) := by
  obtain ⟨front, ps, rest, hcuts, hne, hrun, hpieces, -⟩ := exists_run h
  rw [← hrun]
  exact hcuts.holds hne hpieces

/-- The last words of a source, cut out with what is behind them. -/
theorem rest_holds {source : String} {before others : List Token} {first : Token}
    (h : tokens source = before ++ first :: others) :
    (Span.mk first.span.start source.utf8ByteSize).Holds source (first :: others) := by
  have hrunning : tokens source = before ++ first :: (others ++ []) := by
    rw [List.append_nil, h]
  obtain ⟨front, ps, rest, hcuts, hne, hrun, -, hpieces⟩ := exists_run hrunning
  have hrest : (Span.mk first.span.start source.utf8ByteSize).Cuts source front
      (textOf ps ++ rest) [] := by
    refine ⟨?_, hcuts.start_eq, ?_⟩
    · rw [hcuts.source_eq, List.append_nil]
    · rw [hcuts.utf8ByteSize_eq, hcuts.stop_eq, utf8Length_append, Nat.add_assoc]
  rw [← hrun]
  exact hrest.holds (by simp [hne]) (hpieces rfl)

/-- A single word. -/
theorem Token.span_holds {source : String} {t : Token} (ht : t ∈ tokens source) :
    t.span.Holds source [t] := by
  obtain ⟨before, after, htokens⟩ := List.append_of_mem ht
  have hrun : tokens source = before ++ t :: ([] ++ after) := htokens
  exact runSpan_holds hrun

end PagePreview
