/-
PagePreview.Proofs.Source.Print — words that are written are read again.

A name and a punctuation character are written as they are. A quoted text
is written between quotes, with a backslash before each quote and each
backslash in it. Between two words stands one space. So a word ends where
the lexer takes it to end, and no two slashes start a comment.

* `Lexeme.written`, `writeAll` — words as characters.
* `Lexeme.Proper` — the words that a source can have.
* `splitLexeme_written` — a word, with what follows it.
* `map_lexeme_tokens_writeAll` — the words of a text are those that were
  written.
-/
import PagePreview.Proofs.Source.Pieces

namespace PagePreview

/-! ## Writing -/

/-- A letter or underscore, then letters, digits and underscores. -/
def isIdentifier (name : String) : Bool :=
  match name.toList with
  | [] => false
  | c :: rest => isNameStart c && rest.all isNamePart

/-- A backslash is put before each quote and each backslash. -/
def escapeLiteral : List Char → List Char
  | [] => []
  | c :: rest =>
    if c = '"' ∨ c = '\\' then '\\' :: c :: escapeLiteral rest else c :: escapeLiteral rest

namespace Lexeme

def written : Lexeme → List Char
  | ident name => name.toList
  | str text => '"' :: (escapeLiteral text.toList ++ ['"'])
  | punct c => [c]

/-- A source can have the word: a name is an identifier, and a punctuation
character is nothing else. -/
def Proper : Lexeme → Prop
  | ident name => isIdentifier name = true
  | str _ => True
  | punct c => isBlank c = false ∧ c ≠ '"' ∧ isNameStart c = false

instance : DecidablePred Proper
  | ident name => inferInstanceAs (Decidable (isIdentifier name = true))
  | str _ => inferInstanceAs (Decidable True)
  | punct c => inferInstanceAs (Decidable (isBlank c = false ∧ c ≠ '"' ∧ isNameStart c = false))

end Lexeme

/-- Words with one space between them. -/
def writeAll (ls : List Lexeme) : List Char :=
  [' '].intercalate (ls.map Lexeme.written)

/-! ## String literals -/

theorem splitLiteral_escapeLiteral (text rest : List Char) :
    splitLiteral (escapeLiteral text ++ '"' :: rest) = (escapeLiteral text ++ ['"'], rest) := by
  induction text with
  | nil => rfl
  | cons c text ih =>
    rw [escapeLiteral]
    split_ifs with hc
    · rw [List.cons_append, List.cons_append, splitLiteral_escape hc, ih]
      rfl
    · rw [not_or] at hc
      rw [List.cons_append, splitLiteral_plain hc.1 (plain_of_ne hc.2 _), ih]
      rfl

theorem literalText_escapeLiteral (text : List Char) :
    literalText (escapeLiteral text ++ ['"']) = text := by
  induction text with
  | nil => rfl
  | cons c text ih =>
    rw [escapeLiteral]
    split_ifs with hc
    · rw [List.cons_append, List.cons_append, literalText_escape hc, ih]
    · rw [not_or] at hc
      rw [List.cons_append, literalText_plain hc.1 (plain_of_ne hc.2 _), ih]

/-! ## One word -/

/-- The text is at its end or goes on with a space. -/
def Spaced (rest : List Char) : Prop :=
  ∀ c ∈ rest.head?, c = ' '

theorem takeWhile_append_of_spaced {p : Char → Bool} (hp : p ' ' = false) {rest : List Char}
    (hrest : Spaced rest) {cs : List Char} (hcs : ∀ c ∈ cs, p c = true) :
    (cs ++ rest).takeWhile p = cs ∧ (cs ++ rest).dropWhile p = rest := by
  rw [List.takeWhile_append_of_pos hcs, List.dropWhile_append_of_pos hcs]
  cases rest with
  | nil => simp
  | cons c rest =>
    obtain rfl := hrest c rfl
    simp [hp]

namespace Lexeme

variable {l : Lexeme} {c : Char} {cs rest : List Char}

theorem exists_written (h : l.Proper) : ∃ c cs, l.written = c :: cs := by
  cases l with
  | ident name =>
    cases hname : name.toList with
    | nil => simp [Proper, isIdentifier, hname] at h
    | cons c cs => exact ⟨c, cs, hname⟩
  | str text => exact ⟨_, _, rfl⟩
  | punct c => exact ⟨_, _, rfl⟩

/-- A word is found in front of what follows it. -/
theorem splitLexeme_written (h : l.Proper) (hwritten : l.written = c :: cs)
    (hrest : Spaced rest) : splitLexeme c (cs ++ rest) = (cs, l, rest) := by
  cases l with
  | ident name =>
    have hname : name.toList = c :: cs := hwritten
    have hparts : isNameStart c = true ∧ ∀ d ∈ cs, isNamePart d = true := by
      simpa [Proper, isIdentifier, hname] using h
    obtain ⟨htake, hdrop⟩ := takeWhile_append_of_spaced (by decide) hrest hparts.2
    rw [splitLexeme_name hparts.1, htake, hdrop]
    simp only [← hname, String.ofList_toList]
  | str text =>
    obtain ⟨rfl, rfl⟩ := List.cons.inj hwritten
    rw [splitLexeme_quote, List.append_assoc, List.singleton_append, splitLiteral_escapeLiteral]
    simp only [literalText_escapeLiteral, String.ofList_toList]
  | punct d =>
    obtain ⟨rfl, rfl⟩ := List.cons.inj hwritten
    obtain ⟨-, hquote, hname⟩ := h
    exact splitLexeme_other hquote (by simp [hname]) _

theorem isBlank_of_isNameStart (h : isNameStart c = true) : isBlank c = false := by
  by_contra hblank
  simp only [isBlank, Bool.not_eq_false, Bool.or_eq_true, beq_iff_eq] at hblank
  rcases hblank with ((rfl | rfl) | rfl) | rfl
  all_goals exact absurd h (by decide)

theorem isBlank_of_written (h : l.Proper) (hwritten : l.written = c :: cs) : isBlank c = false := by
  cases l with
  | ident name =>
    have hname : name.toList = c :: cs := hwritten
    simp only [Proper, isIdentifier, hname, Bool.and_eq_true] at h
    exact isBlank_of_isNameStart h.1
  | str text =>
    obtain ⟨rfl, -⟩ := List.cons.inj hwritten
    rfl
  | punct d =>
    obtain ⟨rfl, -⟩ := List.cons.inj hwritten
    exact h.1

/-- A slash is followed by no other slash. -/
theorem head?_of_written (h : l.Proper) (hwritten : l.written = '/' :: cs) (hrest : Spaced rest) :
    (cs ++ rest).head? ≠ some '/' := by
  cases l with
  | ident name =>
    have hname : name.toList = '/' :: cs := hwritten
    simp only [Proper, isIdentifier, hname, Bool.and_eq_true] at h
    exact absurd h.1 (by decide)
  | str text => exact absurd (List.cons.inj hwritten).1 (by decide)
  | punct d =>
    obtain ⟨-, rfl⟩ := List.cons.inj hwritten
    intro hslash
    exact absurd (hrest '/' hslash) (by decide)

/-- No word starts with a blank or starts a comment. -/
theorem splitGap_written (h : l.Proper) (hwritten : l.written = c :: cs) (hrest : Spaced rest) :
    splitGap false (c :: (cs ++ rest)) = ([], c :: (cs ++ rest)) := by
  have hcomment : ¬(c = '/' ∧ (cs ++ rest).head? = some '/') := by
    rintro ⟨rfl, hslash⟩
    exact head?_of_written h hwritten hrest hslash
  rw [splitGap, isBlank_of_written h hwritten, if_neg hcomment]
  rfl

theorem splitGap_space (cs : List Char) :
    splitGap false (' ' :: cs) = (' ' :: (splitGap false cs).1, (splitGap false cs).2) := by
  rw [splitGap]
  rfl

/-- A word with at most one space in front of it is a piece of the text. -/
theorem pieces_written (h : l.Proper) (hrest : Spaced rest) {gap : List Char}
    (hgap : gap = [] ∨ gap = [' ']) :
    (pieces (gap ++ (l.written ++ rest))).1.map (·.lexeme) =
      l :: (pieces rest).1.map (·.lexeme) := by
  obtain ⟨c, cs, hwritten⟩ := exists_written h
  have hhere := splitGap_written h hwritten hrest
  have hfits : Piece.Fits ⟨gap, c, cs, l⟩ rest := by
    refine ⟨?_, splitLexeme_written h hwritten hrest⟩
    rcases hgap with rfl | rfl
    · exact hhere
    · rw [List.singleton_append, splitGap_space, hhere]
  have hpieces := hfits.pieces_eq
  rw [Piece.text, Piece.written, ← hwritten, List.append_assoc] at hpieces
  rw [hpieces]
  rfl

end Lexeme

/-! ## All words -/

theorem pieces_nil : pieces [] = ([], []) :=
  pieces_of_splitGap rfl

/-- Words with a space before each of them. -/
def spaced (ls : List Lexeme) : List Char :=
  ls.flatMap fun l => ' ' :: l.written

theorem spaced_spaced (ls : List Lexeme) : Spaced (spaced ls) := by
  intro c hc
  cases ls with
  | nil => simp [spaced] at hc
  | cons l ls =>
    simp only [spaced, List.flatMap_cons, List.cons_append, List.head?_cons] at hc
    exact (Option.some.inj hc).symm

theorem writeAll_cons (l : Lexeme) (ls : List Lexeme) :
    writeAll (l :: ls) = l.written ++ spaced ls := by
  induction ls generalizing l with
  | nil => simp [writeAll, spaced]
  | cons l' ls ih =>
    have hrest := ih l'
    simp only [writeAll, spaced, List.map_cons, List.intercalate_cons_cons, List.flatMap_cons] at *
    rw [hrest]
    simp

theorem map_lexeme_pieces_spaced (ls : List Lexeme) (h : ∀ l ∈ ls, l.Proper) :
    (pieces (spaced ls)).1.map (·.lexeme) = ls := by
  induction ls with
  | nil => rw [spaced, List.flatMap_nil, pieces_nil, List.map_nil]
  | cons l ls ih =>
    have hl : l.Proper := h l List.mem_cons_self
    have hrest := ih fun l' hl' => h l' (List.mem_cons_of_mem l hl')
    have hpieces := Lexeme.pieces_written hl (spaced_spaced ls) (.inr rfl)
    rw [hrest] at hpieces
    exact hpieces

theorem map_lexeme_placePieces (offset : Nat) (ps : List Piece) :
    (placePieces offset ps).map (·.lexeme) = ps.map (·.lexeme) := by
  induction ps generalizing offset with
  | nil => rfl
  | cons p ps ih =>
    rw [placePieces, List.map_cons, List.map_cons, ih]

/-- The words of a text are those that it was written with. -/
theorem map_lexeme_tokens_writeAll (ls : List Lexeme) (h : ∀ l ∈ ls, l.Proper) :
    (tokens (String.ofList (writeAll ls))).map (·.lexeme) = ls := by
  rw [tokens, map_lexeme_placePieces, String.toList_ofList]
  cases ls with
  | nil => rw [writeAll, List.map_nil, List.intercalate_nil, pieces_nil, List.map_nil]
  | cons l ls =>
    have hl : l.Proper := h l List.mem_cons_self
    have hrest := map_lexeme_pieces_spaced ls fun l' hl' => h l' (List.mem_cons_of_mem l hl')
    have hpieces := Lexeme.pieces_written hl (spaced_spaced ls) (.inl rfl)
    rw [hrest] at hpieces
    rw [writeAll_cons]
    exact hpieces

end PagePreview
