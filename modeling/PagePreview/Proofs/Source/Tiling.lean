/-
PagePreview.Proofs.Source.Tiling — the words of a source tile it.

Each word stands in a range of the source. The ranges come one behind the
other, and what is left between them is nothing but blanks and comments. A
name goes on as long as it can, a quoted text up to the quote that closes
it, and any other character stands alone.

What a range holds is said without the lexer: `IsGap` is the grammar of
blanks and comments, and `Lexeme.Spells` says how a word is written and what
may follow it. The lexer that reads one word at a time is `Cursor`.

* `splitGap_isGap`, `Piece.Fits.spells` — what the lexer takes for a gap and
  for a word is one.
* `Cursor.read_start` — the words one after the other, and then the end
  again and again.
* `tokens_tile` — all of it, for every source.
-/
import PagePreview.Proofs.Source.Pieces
import PagePreview.Proofs.Source.Print
import PagePreview.Proofs.Text.Excerpt

namespace PagePreview

/-! ## Gaps -/

/-- Blanks and comments in front of a text. A comment goes on to the end of
its line, or to the end of the source if nothing is behind the gap. -/
inductive IsGap (after : List Char) : List Char → Prop
  | nil : IsGap after []
  | blank {c : Char} {rest : List Char} (hc : c ∈ [' ', '\t', '\r', '\n'])
    (hrest : IsGap after rest) : IsGap after (c :: rest)
  | comment {text rest : List Char} (htext : '\n' ∉ text) (hline : ∀ c ∈ rest.head?, c = '\n')
    (hend : rest = [] → after = []) (hrest : IsGap after rest) :
    IsGap after ('/' :: '/' :: (text ++ rest))

/-- The rest of a comment, and a gap behind it. -/
def IsCommentRest (after gap : List Char) : Prop :=
  ∃ text rest, gap = text ++ rest ∧ '\n' ∉ text ∧ (∀ c ∈ rest.head?, c = '\n') ∧
    (rest = [] → after = []) ∧ IsGap after rest

theorem IsCommentRest.newline {after rest : List Char} (h : IsGap after rest) :
    IsCommentRest after ('\n' :: rest) := by
  refine ⟨[], '\n' :: rest, rfl, List.not_mem_nil, ?_, nofun, ?_⟩
  · intro c hc
    exact (Option.some.inj hc).symm
  · exact .blank (by decide) h

theorem IsCommentRest.cons {after gap : List Char} {c : Char} (hc : c ≠ '\n')
    (h : IsCommentRest after gap) : IsCommentRest after (c :: gap) := by
  obtain ⟨text, rest, rfl, htext, hline, hend, hrest⟩ := h
  exact ⟨c :: text, rest, rfl, by simp [htext, Ne.symm hc], hline, hend, hrest⟩

/-- Two slashes start a comment. -/
theorem IsCommentRest.isGap {after gap : List Char}
    (h : IsCommentRest after ('/' :: gap)) : IsGap after ('/' :: '/' :: gap) := by
  obtain ⟨text, rest, htext, hnewline, hline, hend, hrest⟩ := h
  cases text with
  | nil =>
    rw [List.nil_append] at htext
    exact absurd (hline '/' (by rw [← htext]; rfl)) (by decide)
  | cons c text =>
    obtain ⟨rfl, rfl⟩ := List.cons.inj htext
    exact .comment (fun hmem => hnewline (List.mem_cons_of_mem _ hmem)) hline hend hrest

/-- What the lexer passes over is a gap, or the rest of a comment with a gap
behind it where it starts in a comment. -/
theorem splitGap_isGap (flag : Bool) (cs : List Char) :
    if flag then IsCommentRest (splitGap flag cs).2 (splitGap flag cs).1
    else IsGap (splitGap flag cs).2 (splitGap flag cs).1 := by
  fun_induction splitGap flag cs with
  | case1 flag =>
    cases flag with
    | false => exact .nil
    | true => exact ⟨[], [], rfl, List.not_mem_nil, by simp, fun _ => rfl, .nil⟩
  | case2 c rest gap after heq ih =>
    rw [heq] at ih
    by_cases hc : c = '\n'
    · subst hc
      exact .newline ih
    · rw [if_pos (by simpa using hc)] at ih
      exact ih.cons hc
  | case3 c rest hblank gap after heq ih =>
    rw [heq] at ih
    refine .blank ?_ ih
    simp only [isBlank, Bool.or_eq_true, beq_iff_eq] at hblank
    simp only [List.mem_cons, List.not_mem_nil, or_false]
    tauto
  | case4 c rest hblank hcomment gap after heq ih =>
    obtain ⟨rfl, hslash⟩ := hcomment
    obtain ⟨tail, rfl⟩ := List.head?_eq_some_iff.mp hslash
    rw [heq] at ih
    rw [splitGap] at heq
    obtain ⟨rfl, rfl⟩ := Prod.mk.inj heq
    exact ih.isGap
  | case5 c rest hblank hcomment => exact .nil

/-! ## Words -/

/-- The word can be written so in front of a text. -/
def Lexeme.Spells (written after : List Char) : Lexeme → Prop
  | ident name =>
    written = name.toList ∧ isIdentifier name = true ∧ ∀ c ∈ after.head?, isNamePart c = false
  | str text =>
    ∃ body units, written = '"' :: body ∧ ['"'] ∉ units ∧
      text.toList = units.filterMap List.getLast? ∧
      (literalUnits body = units ++ [['"']] ∨ literalUnits body = units ∧ after = [])
  | punct c => written = [c] ∧ (punct c).Proper ∧ ¬(c = '/' ∧ after.head? = some '/')

/-- What is behind a gap is neither a blank nor the start of a comment. -/
theorem startsWord_of_splitGap {c : Char} {rest : List Char}
    (h : splitGap false (c :: rest) = ([], c :: rest)) :
    isBlank c = false ∧ ¬(c = '/' ∧ rest.head? = some '/') := by
  rw [splitGap] at h
  split at h
  · simp at h
  · next hblank =>
    split at h
    · simp at h
    · next hcomment => exact ⟨by simpa using hblank, hcomment⟩

theorem Piece.Fits.spells {p : Piece} {after : List Char} (h : p.Fits after) :
    p.lexeme.Spells p.written after := by
  obtain ⟨gap, c, others, lexeme⟩ := p
  have hlexeme : splitLexeme c (others ++ after) = (others, lexeme, after) := h.lexeme
  show lexeme.Spells (c :: others) after
  rcases lexeme_cases c with rfl | hname | ⟨hquote, hname⟩
  · rw [splitLexeme_quote] at hlexeme
    obtain ⟨units, hnotin, htext, hunits⟩ := splitLiteral_units (others ++ after)
    simp only [Prod.mk.injEq] at hlexeme
    rw [hlexeme.1] at htext hunits
    rw [hlexeme.2.2] at hunits
    rw [← hlexeme.2.1, hlexeme.1]
    exact ⟨others, units, rfl, hnotin, by rw [String.toList_ofList, htext], hunits⟩
  · rw [splitLexeme_name hname] at hlexeme
    simp only [Prod.mk.injEq] at hlexeme
    have hparts : others.all isNamePart = true := by
      rw [← hlexeme.1]
      exact List.all_takeWhile
    rw [← hlexeme.2.1, hlexeme.1]
    refine ⟨String.toList_ofList.symm, ?_, fun d hd => ?_⟩
    · simp only [isIdentifier, String.toList_ofList, hname, hparts, Bool.and_self]
    · have hhead := List.head?_dropWhile_not isNamePart (others ++ after)
      rw [hlexeme.2.2, hd] at hhead
      exact hhead
  · rw [splitLexeme_other hquote hname] at hlexeme
    simp only [Prod.mk.injEq] at hlexeme
    obtain ⟨rfl, rfl, -⟩ := hlexeme
    obtain ⟨hblank, hcomment⟩ := startsWord_of_splitGap (splitGap_idem h.gap)
    exact ⟨rfl, ⟨hblank, hquote, by simpa using hname⟩, hcomment⟩

theorem Lexeme.Spells.proper {l : Lexeme} {written after : List Char}
    (h : l.Spells written after) : l.Proper := by
  cases l with
  | ident name => exact h.2.1
  | str text => exact trivial
  | punct c => exact h.2.1

/-! ## Word by word -/

/-- A place in a source: its offset and what is not read yet. -/
structure Cursor where
  offset : Nat
  rest : List Char

namespace Cursor

/-- Reads a word, or nothing at the end, with the range that it stands in;
what is left to read is behind that range. -/
def next (c : Cursor) : (Option Lexeme × Span) × Cursor :=
  match splitGap false c.rest with
  | (gap, []) =>
    let stop := c.offset + utf8Length gap
    ((none, ⟨stop, stop⟩), ⟨stop, []⟩)
  | (gap, first :: tail) =>
    let start := c.offset + utf8Length gap
    let (others, lexeme, after) := splitLexeme first tail
    let stop := start + utf8Length (first :: others)
    ((some lexeme, ⟨start, stop⟩), ⟨stop, after⟩)

/-- What is read after `n` other readings. -/
def read : Nat → Cursor → Option Lexeme × Span
  | 0, c => c.next.1
  | n + 1, c => read n c.next.2

def start (source : String) : Cursor :=
  ⟨0, source.toList⟩

theorem next_of_splitGap {offset : Nat} {gap : List Char} (h : splitGap false gap = (gap, [])) :
    next ⟨offset, gap⟩ = ((none, ⟨offset + utf8Length gap, offset + utf8Length gap⟩),
      ⟨offset + utf8Length gap, []⟩) := by
  simp only [next, h]

theorem next_of_fits {offset : Nat} {p : Piece} {after : List Char} (h : p.Fits after) :
    next ⟨offset, p.text ++ after⟩ =
      ((some p.lexeme, ⟨offset + utf8Length p.gap,
          offset + utf8Length p.gap + utf8Length p.written⟩),
        ⟨offset + utf8Length p.gap + utf8Length p.written, after⟩) := by
  rw [Piece.text, Piece.written, List.append_assoc, List.cons_append]
  simp only [next, h.gap, h.lexeme]

/-- At the end there is nothing but the end. -/
theorem read_nil (n offset : Nat) : read n ⟨offset, []⟩ = (none, ⟨offset, offset⟩) := by
  induction n with
  | zero => rfl
  | succ n ih => exact ih

theorem read_eq (n offset : Nat) (cs : List Char) :
    read n ⟨offset, cs⟩ = match (placePieces offset (pieces cs).1)[n]? with
      | some t => (some t.lexeme, t.span)
      | none => (none, ⟨offset + utf8Length cs, offset + utf8Length cs⟩) := by
  induction cs using pieces_induction generalizing n offset with
  | last gap h =>
    rw [pieces_of_splitGap h]
    cases n with
    | zero => rw [read, next_of_splitGap h]; rfl
    | succ n =>
      rw [read, next_of_splitGap h, read_nil]
      rfl
  | piece p after h ih =>
    rw [h.pieces_eq, placePieces]
    cases n with
    | zero => rw [read, next_of_fits h]; rfl
    | succ n =>
      rw [read, next_of_fits h, ih, List.getElem?_cons_succ, Piece.text]
      simp only [utf8Length_append, Nat.add_assoc]

/-- The words are read one after the other, and then the end, at the end of
the source, again and again. -/
theorem read_start (n : Nat) (source : String) :
    read n (start source) = match (tokens source)[n]? with
      | some t => (some t.lexeme, t.span)
      | none => (none, ⟨source.utf8ByteSize, source.utf8ByteSize⟩) := by
  rw [start, read_eq, Nat.zero_add, utf8Length_toList]
  rfl

end Cursor

/-! ## Ranges -/

theorem le_start_of_mem_placePieces {offset : Nat} {ps : List Piece} {t : Token}
    (h : t ∈ placePieces offset ps) : offset ≤ t.span.start := by
  induction ps generalizing offset with
  | nil => exact nomatch h
  | cons p ps ih =>
    rcases List.mem_cons.mp h with rfl | h
    · exact Nat.le_add_right _ _
    · have hrest := ih h
      omega

theorem pairwise_placePieces (offset : Nat) (ps : List Piece) :
    (placePieces offset ps).Pairwise fun t u => t.span.stop ≤ u.span.start := by
  induction ps generalizing offset with
  | nil => exact .nil
  | cons p ps ih => exact .cons (fun u hu => le_start_of_mem_placePieces hu) (ih _)

/-- The ranges before, between and behind tokens. -/
def gapSpans (start stop : Nat) : List Token → List Span
  | [] => [⟨start, stop⟩]
  | t :: ts => ⟨start, t.span.start⟩ :: gapSpans t.span.stop stop ts

/-- Where a text is cut into a gap, a word and the rest. -/
theorem Piece.cuts {source : String} {before after : List Char} {p : Piece}
    (h : source.toList = before ++ (p.text ++ after)) :
    (Span.mk (utf8Length before) (utf8Length before + utf8Length p.gap)).Cuts source
        before p.gap (p.written ++ after) ∧
      (Span.mk (utf8Length before + utf8Length p.gap)
          (utf8Length before + utf8Length p.gap + utf8Length p.written)).Cuts source
        (before ++ p.gap) p.written after := by
  rw [Piece.text] at h
  refine ⟨⟨?_, rfl, rfl⟩, ⟨?_, ?_, ?_⟩⟩
  · rw [h, List.append_assoc]
  · rw [h, List.append_assoc, List.append_assoc]
  · rw [utf8Length_append]
  · rw [utf8Length_append]

/-- A word stands where it is said to stand. -/
theorem exists_cuts_of_mem_placePieces {source : String} {before cs : List Char} {t : Token}
    (hsource : source.toList = before ++ cs)
    (ht : t ∈ placePieces (utf8Length before) (pieces cs).1) :
    ∃ front written after, t.span.Cuts source front written after ∧ written ≠ [] ∧
      t.lexeme.Spells written after := by
  induction cs using pieces_induction generalizing before with
  | last gap h => simp [pieces_of_splitGap h, placePieces] at ht
  | piece p after h ih =>
    obtain ⟨-, hword⟩ := Piece.cuts hsource
    rw [h.pieces_eq, placePieces] at ht
    rcases List.mem_cons.mp ht with rfl | ht
    · exact ⟨_, _, _, hword, List.cons_ne_nil _ _, h.spells⟩
    · have hrest : source.toList = (before ++ p.text) ++ after := by
        rw [hsource, List.append_assoc]
      refine ih hrest ?_
      simpa only [Piece.text, utf8Length_append, Nat.add_assoc] using ht

theorem exists_cuts_of_mem_gapSpans {source : String} {before cs : List Char} {s : Span}
    (hsource : source.toList = before ++ cs)
    (hs : s ∈ gapSpans (utf8Length before) source.utf8ByteSize
      (placePieces (utf8Length before) (pieces cs).1)) :
    ∃ front gap after, s.Cuts source front gap after ∧ IsGap after gap := by
  induction cs using pieces_induction generalizing before with
  | last gap h =>
    rw [pieces_of_splitGap h] at hs
    obtain rfl := List.mem_singleton.mp hs
    have hgap := splitGap_isGap false gap
    rw [h] at hgap
    refine ⟨before, gap, [], ⟨?_, rfl, ?_⟩, hgap⟩
    · rw [hsource, List.append_nil]
    · rw [← utf8Length_toList, hsource, utf8Length_append]
  | piece p after h ih =>
    obtain ⟨hgap, -⟩ := Piece.cuts hsource
    have hisgap := splitGap_isGap false (p.gap ++ p.first :: (p.others ++ after))
    rw [h.gap] at hisgap
    rw [h.pieces_eq, placePieces, gapSpans] at hs
    rcases List.mem_cons.mp hs with rfl | hs
    · exact ⟨_, _, _, hgap, hisgap⟩
    · have hrest : source.toList = (before ++ p.text) ++ after := by
        rw [hsource, List.append_assoc]
      refine ih hrest ?_
      simpa only [Piece.text, utf8Length_append, Nat.add_assoc] using hs

theorem exists_cuts {source : String} {t : Token} (ht : t ∈ tokens source) :
    ∃ front written after, t.span.Cuts source front written after ∧ written ≠ [] ∧
      t.lexeme.Spells written after := by
  have hsource : source.toList = [] ++ source.toList := rfl
  exact exists_cuts_of_mem_placePieces hsource ht

theorem within_of_mem_tokens {source : String} {t : Token} (ht : t ∈ tokens source) :
    t.span.Within source := by
  obtain ⟨front, written, after, hcuts, hne, -⟩ := exists_cuts ht
  exact hcuts.within hne

theorem pairwise_tokens (source : String) :
    (tokens source).Pairwise fun t u => t.span.stop ≤ u.span.start :=
  pairwise_placePieces 0 _

/-- The words of a source tile it. They are read one after the other, and
then the end again and again. Each has a range of its own that is not empty,
the ranges come one behind the other and can be cut out, what is left out is
blanks and comments, and each range holds its word as it is written, in
front of something that does not belong to it. -/
theorem tokens_tile (source : String) :
    (∀ n, (Cursor.start source).read n = match (tokens source)[n]? with
      | some t => (some t.lexeme, t.span)
      | none => (none, ⟨source.utf8ByteSize, source.utf8ByteSize⟩)) ∧
    (∀ t ∈ tokens source, t.span.Within source ∧
      t.lexeme.Spells (t.span.excerpt source).toList (t.span.behind source).toList) ∧
    ((tokens source).Pairwise fun t u => t.span.stop ≤ u.span.start) ∧
    ∀ gap ∈ gapSpans 0 source.utf8ByteSize (tokens source),
      IsBoundary source gap.start ∧ IsBoundary source gap.stop ∧
        IsGap (gap.behind source).toList (gap.excerpt source).toList := by
  refine ⟨fun n => Cursor.read_start n source, fun t ht => ⟨within_of_mem_tokens ht, ?_⟩,
    pairwise_tokens source, fun gap hgap => ?_⟩
  · obtain ⟨front, written, after, hcuts, -, hspells⟩ := exists_cuts ht
    rw [hcuts.excerpt_eq, hcuts.behind_eq, String.toList_ofList, String.toList_ofList]
    exact hspells
  · have hsource : source.toList = [] ++ source.toList := rfl
    obtain ⟨front, text, after, hcuts, hisgap⟩ := exists_cuts_of_mem_gapSpans hsource hgap
    refine ⟨hcuts.isBoundary_start, hcuts.isBoundary_stop, ?_⟩
    rw [hcuts.excerpt_eq, hcuts.behind_eq, String.toList_ofList, String.toList_ofList]
    exact hisgap

end PagePreview
