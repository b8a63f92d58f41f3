/-
PagePreview.Proofs.Source.Pieces — the pieces of a text, one at a time.

A text is read piece by piece, and what is read of a piece hangs on no more
of the text behind it than its first character. So a run of pieces can be
taken out of a text: read on its own, it is the same pieces.

* `Piece.Fits` — a piece is what is read first in front of a text.
* `pieces_induction` — induction along the reading.
* `Piece.Fits.truncate` — what a piece hangs on.
* `pieces_run` — a run of pieces that is taken out of a text.
-/
import Mathlib
import PagePreview.Proofs.Source.Literal

namespace PagePreview

/-! ## The reading, step by step -/

/-- The characters of the piece. -/
def Piece.text (p : Piece) : List Char :=
  p.gap ++ p.written

def textOf (ps : List Piece) : List Char :=
  ps.flatMap Piece.text

@[simp] theorem textOf_nil : textOf [] = [] := rfl

@[simp] theorem textOf_cons (p : Piece) (ps : List Piece) :
    textOf (p :: ps) = p.text ++ textOf ps := rfl

/-- In front of the text, the piece is what is read first. -/
structure Piece.Fits (p : Piece) (after : List Char) : Prop where
  gap : splitGap false (p.gap ++ p.first :: (p.others ++ after)) =
    (p.gap, p.first :: (p.others ++ after))
  lexeme : splitLexeme p.first (p.others ++ after) = (p.others, p.lexeme, after)

theorem Piece.Fits.pieces_eq {p : Piece} {after : List Char} (h : p.Fits after) :
    pieces (p.text ++ after) = (p :: (pieces after).1, (pieces after).2) := by
  have htext : p.text ++ after = p.gap ++ p.first :: (p.others ++ after) := by
    rw [Piece.text, Piece.written, List.append_assoc, List.cons_append]
  rw [htext, pieces, h.gap]
  simp only [h.lexeme]

theorem pieces_of_splitGap {gap : List Char} (h : splitGap false gap = (gap, [])) :
    pieces gap = ([], gap) := by
  rw [pieces, h]

theorem pieces_induction {motive : List Char → Prop}
    (last : ∀ gap, splitGap false gap = (gap, []) → motive gap)
    (piece : ∀ p after, Piece.Fits p after → motive after → motive (p.text ++ after))
    (cs : List Char) : motive cs := by
  induction hn : cs.length using Nat.strongRecOn generalizing cs with
  | ind n ih =>
    subst hn
    have happend := splitGap_append false cs
    cases hgap : splitGap false cs with
    | mk gap rest =>
      rw [hgap] at happend
      cases rest with
      | nil =>
        obtain rfl : gap = cs := by simpa using happend
        exact last gap hgap
      | cons c tail =>
        have htail := splitLexeme_append c tail
        have hlength := length_splitLexeme_le c tail
        cases hlex : splitLexeme c tail with
        | mk others lexed =>
          obtain ⟨lexeme, after⟩ := lexed
          rw [hlex] at htail hlength
          dsimp only at happend htail hlength
          subst htail happend
          have hfits : Piece.Fits ⟨gap, c, others, lexeme⟩ after := ⟨hgap, hlex⟩
          have hshorter : after.length < (gap ++ c :: (others ++ after)).length := by
            simp only [List.length_append, List.length_cons] at hlength ⊢
            omega
          have hafter : motive after := ih after.length hshorter after rfl
          have hmotive := piece _ after hfits hafter
          simpa [Piece.text, Piece.written] using hmotive

/-- Nothing of a text is lost. -/
theorem textOf_pieces (cs : List Char) : textOf (pieces cs).1 ++ (pieces cs).2 = cs := by
  induction cs using pieces_induction with
  | last gap h => rw [pieces_of_splitGap h, textOf_nil, List.nil_append]
  | piece p after h ih => rw [h.pieces_eq, textOf_cons, List.append_assoc, ih]

/-! ## What a piece hangs on -/

/-- The text is at its end or goes on as the other does. -/
def Follows (rest other : List Char) : Prop :=
  ∀ c ∈ rest.head?, other.head? = some c

theorem Follows.eq_nil {rest : List Char} (h : Follows rest []) : rest = [] := by
  cases rest with
  | nil => rfl
  | cons c rest => exact absurd (h c rfl) (by simp)

theorem follows_append (cs rest : List Char) : Follows cs (cs ++ rest) := by
  cases cs with
  | nil => exact fun c hc => nomatch hc
  | cons c cs => exact fun d hd => hd

theorem Follows.append {rest other : List Char} (h : Follows rest other) (cs : List Char) :
    Follows (cs ++ rest) (cs ++ other) := by
  cases cs with
  | nil => exact h
  | cons c cs => exact fun d hd => hd

theorem splitGap_truncate {flag : Bool} {cs gap : List Char} {c : Char} {rest rest' : List Char}
    (h : splitGap flag cs = (gap, c :: rest)) (hfollows : Follows rest' rest) :
    splitGap flag (gap ++ c :: rest') = (gap, c :: rest') := by
  fun_induction splitGap flag cs generalizing gap with
  | case1 => simp at h
  | case2 d tail gap' after heq ih =>
    obtain ⟨rfl, rfl⟩ := Prod.mk.inj h
    rw [List.cons_append, splitGap, ih heq]
  | case3 d tail hblank gap' after heq ih =>
    obtain ⟨rfl, rfl⟩ := Prod.mk.inj h
    rw [List.cons_append, splitGap, if_pos hblank, ih heq]
  | case4 d tail hblank hcomment gap' after heq ih =>
    obtain ⟨rfl, rfl⟩ := Prod.mk.inj h
    have htail := splitGap_append true tail
    rw [heq] at htail
    have hhead : (gap' ++ c :: rest').head? = some '/' := by
      rw [← hcomment.2, ← htail]
      cases gap' <;> rfl
    rw [List.cons_append, splitGap, if_neg hblank, if_pos ⟨hcomment.1, hhead⟩, ih heq]
  | case5 d tail hblank hcomment =>
    obtain ⟨rfl, htail⟩ := Prod.mk.inj h
    obtain ⟨rfl, rfl⟩ := List.cons.inj htail
    have hcomment' : ¬(d = '/' ∧ rest'.head? = some '/') :=
      fun hslashes => hcomment ⟨hslashes.1, hfollows '/' hslashes.2⟩
    rw [List.nil_append, splitGap, if_neg hblank, if_neg hcomment']

/-- Behind a gap there is no other. -/
theorem splitGap_idem {flag : Bool} {cs gap : List Char} {c : Char} {rest : List Char}
    (h : splitGap flag cs = (gap, c :: rest)) :
    splitGap false (c :: rest) = ([], c :: rest) := by
  fun_induction splitGap flag cs generalizing gap with
  | case1 => simp at h
  | case2 d tail gap' after heq ih =>
    obtain ⟨rfl, rfl⟩ := Prod.mk.inj h
    exact ih heq
  | case3 d tail hblank gap' after heq ih =>
    obtain ⟨rfl, rfl⟩ := Prod.mk.inj h
    exact ih heq
  | case4 d tail hblank hcomment gap' after heq ih =>
    obtain ⟨rfl, rfl⟩ := Prod.mk.inj h
    exact ih heq
  | case5 d tail hblank hcomment =>
    obtain ⟨rfl, htail⟩ := Prod.mk.inj h
    rw [← htail, splitGap, if_neg hblank, if_neg hcomment]

section Lexeme

variable {c : Char}

theorem splitLexeme_quote (rest : List Char) :
    splitLexeme '"' rest =
      ((splitLiteral rest).1, .str (String.ofList (literalText (splitLiteral rest).1)),
        (splitLiteral rest).2) := rfl

theorem splitLexeme_name (hname : isNameStart c = true) (rest : List Char) :
    splitLexeme c rest =
      (rest.takeWhile isNamePart, .ident (String.ofList (c :: rest.takeWhile isNamePart)),
        rest.dropWhile isNamePart) := by
  have hquote : c ≠ '"' := by
    rintro rfl
    exact absurd hname (by decide)
  rw [splitLexeme, if_neg hquote, if_pos hname]

theorem splitLexeme_other (hquote : c ≠ '"') (hname : isNameStart c ≠ true) (rest : List Char) :
    splitLexeme c rest = ([], .punct c, rest) := by
  rw [splitLexeme, if_neg hquote, if_neg hname]

/-- What a lexeme starts with decides what it is. -/
theorem lexeme_cases (c : Char) :
    c = '"' ∨ isNameStart c = true ∨ (c ≠ '"' ∧ isNameStart c ≠ true) := by
  by_cases hquote : c = '"'
  · exact .inl hquote
  · by_cases hname : isNameStart c = true
    · exact .inr (.inl hname)
    · exact .inr (.inr ⟨hquote, hname⟩)

/-- A lexeme hangs on no more of what follows it than how it starts. -/
theorem splitLexeme_truncate {cs after' : List Char}
    (hfollows : Follows after' (splitLexeme c cs).2.2) :
    splitLexeme c ((splitLexeme c cs).1 ++ after') =
      ((splitLexeme c cs).1, (splitLexeme c cs).2.1, after') := by
  rcases lexeme_cases c with rfl | hname | ⟨hquote, hname⟩
  · rw [splitLexeme_quote] at hfollows
    have hend : (splitLiteral cs).2 = [] → after' = [] := by
      intro hnil
      rw [hnil] at hfollows
      exact hfollows.eq_nil
    simp only [splitLexeme_quote, splitLiteral_truncate hend]
  · rw [splitLexeme_name hname] at hfollows
    have hparts : ∀ d ∈ cs.takeWhile isNamePart, isNamePart d = true :=
      fun d hd => List.mem_takeWhile_imp hd
    have hstop : ∀ d ∈ after'.head?, isNamePart d = false := by
      intro d hd
      have hhead := List.head?_dropWhile_not isNamePart cs
      rw [hfollows d hd] at hhead
      exact hhead
    have hnone : after'.takeWhile isNamePart = [] ∧ after'.dropWhile isNamePart = after' := by
      cases after' with
      | nil => exact ⟨rfl, rfl⟩
      | cons d rest => simp [hstop d rfl]
    simp only [splitLexeme_name hname]
    rw [List.takeWhile_append_of_pos hparts, List.dropWhile_append_of_pos hparts, hnone.1,
      hnone.2, List.append_nil]
  · simp only [splitLexeme_other hquote hname, List.nil_append]

end Lexeme

/-- The piece without the gap in front of it. -/
def Piece.word (p : Piece) : Piece :=
  { p with gap := [] }

namespace Piece.Fits

variable {p : Piece} {after after' : List Char}

/-- A piece hangs on no more of what follows it than how it starts. -/
theorem truncate (h : p.Fits after) (hfollows : Follows after' after) : p.Fits after' where
  gap := splitGap_truncate h.gap (hfollows.append p.others)
  lexeme := by
    have hlexeme := h.lexeme
    have hrest : Follows after' (splitLexeme p.first (p.others ++ after)).2.2 := by
      rw [hlexeme]
      exact hfollows
    have htruncated := splitLexeme_truncate hrest
    rw [hlexeme] at htruncated
    exact htruncated

/-- A piece can be taken out of the text without the gap before it. -/
theorem word (h : p.Fits after) : p.word.Fits after where
  gap := splitGap_idem h.gap
  lexeme := h.lexeme

end Piece.Fits

/-! ## Runs of pieces -/

/-- The pieces behind the first ones are read from the text behind them. -/
theorem pieces_append {cs : List Char} {ps qs : List Piece} (h : (pieces cs).1 = ps ++ qs) :
    ∃ rest, cs = textOf ps ++ rest ∧ pieces rest = (qs, (pieces cs).2) := by
  induction ps generalizing cs with
  | nil => exact ⟨cs, rfl, Prod.ext h rfl⟩
  | cons p ps ih =>
    cases cs using pieces_induction with
    | last gap hgap => simp [pieces_of_splitGap hgap] at h
    | piece q after hfits =>
      rw [hfits.pieces_eq] at h ⊢
      obtain ⟨rfl, htail⟩ := List.cons.inj h
      obtain ⟨rest, rfl, hrest⟩ := ih htail
      exact ⟨rest, by rw [textOf_cons, List.append_assoc], hrest⟩

/-- The first pieces of a text are read again where the text ends behind
them. -/
theorem pieces_textOf {cs : List Char} {ps qs : List Piece} (h : (pieces cs).1 = ps ++ qs) :
    pieces (textOf ps) = (ps, []) := by
  induction ps generalizing cs with
  | nil =>
    rw [textOf_nil]
    exact pieces_of_splitGap rfl
  | cons p ps ih =>
    cases cs using pieces_induction with
    | last gap hgap => simp [pieces_of_splitGap hgap] at h
    | piece q after hfits =>
      rw [hfits.pieces_eq] at h
      obtain ⟨rfl, htail⟩ := List.cons.inj h
      have hfollows : Follows (textOf ps) after := by
        obtain ⟨rest, rfl, -⟩ := pieces_append htail
        exact follows_append (textOf ps) rest
      have hrun := (hfits.truncate hfollows).pieces_eq
      rw [ih htail] at hrun
      exact hrun

/-- A run of pieces without the gap in front of it. Behind the last pieces
there is a gap at most. -/
theorem pieces_run {cs : List Char} {ps qs rs : List Piece} {p : Piece}
    (h : (pieces cs).1 = ps ++ p :: (qs ++ rs)) :
    ∃ rest, cs = textOf ps ++ p.gap ++ (textOf (p.word :: qs) ++ rest) ∧
      pieces (textOf (p.word :: qs)) = (p.word :: qs, []) ∧
      (rs = [] → pieces (textOf (p.word :: qs) ++ rest) = (p.word :: qs, rest)) := by
  obtain ⟨tail, rfl, htail⟩ := pieces_append h
  cases tail using pieces_induction with
  | last gap hgap => simp [pieces_of_splitGap hgap] at htail
  | piece p' behind hfits =>
    rw [hfits.pieces_eq] at htail
    obtain ⟨rfl, hbehind⟩ := List.cons.inj (Prod.mk.inj htail).1
    obtain ⟨rest, rfl, hrest⟩ := pieces_append hbehind
    refine ⟨rest, ?_, ?_, ?_⟩
    · simp only [textOf_cons, Piece.text, Piece.word, Piece.written, List.append_assoc,
        List.nil_append]
    · have hrun := (hfits.word.truncate (follows_append (textOf qs) rest)).pieces_eq
      rw [pieces_textOf hbehind] at hrun
      exact hrun
    · rintro rfl
      have hgap := textOf_pieces rest
      have hrun := hfits.word.pieces_eq
      simp only [hrest, textOf_nil, List.nil_append] at hgap
      rw [hbehind, hgap, List.append_nil] at hrun
      rw [textOf_cons, List.append_assoc]
      exact hrun

end PagePreview
