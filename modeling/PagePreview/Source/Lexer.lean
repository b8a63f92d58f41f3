/-
PagePreview.Source.Lexer — splitting a page description into tokens.

The reading is a tiling: `pieces` cuts the source into pieces, each a
gap of blanks and comments followed by the characters of one lexeme, and
a last gap. No character is dropped or read twice; the tokens and their
byte ranges are then counted off the pieces.

* `splitGap` — the blanks and `//` comments in front.
* `splitLiteral`, `literalText` — a quoted text, as written and resolved.
  Only `\"` and `\\` are escapes, and a literal that is never closed runs
  to the end of the source.
* `tokens source` — the tokens of a source, in order.
-/
import PagePreview.Source.Token
import PagePreview.Text.Blank

namespace PagePreview

/-! ## Character classes -/

def isNameStart (c : Char) : Bool :=
  c.isAlpha || c == '_'

def isNamePart (c : Char) : Bool :=
  c.isAlphanum || c == '_'

/-! ## Gaps -/

/-- The blanks and comments in front of a text, and what follows them.
The flag tells that the text continues a comment. -/
def splitGap : Bool → List Char → List Char × List Char
  | _, [] => ([], [])
  | true, c :: rest =>
    let (gap, after) := splitGap (c != '\n') rest
    (c :: gap, after)
  | false, c :: rest =>
    if isBlank c then
      let (gap, after) := splitGap false rest
      (c :: gap, after)
    else if c = '/' ∧ rest.head? = some '/' then
      let (gap, after) := splitGap true rest
      (c :: gap, after)
    else ([], c :: rest)

theorem splitGap_append (comment : Bool) (cs : List Char) :
    (splitGap comment cs).1 ++ (splitGap comment cs).2 = cs := by
  fun_induction splitGap comment cs <;> simp_all

/-! ## String literals -/

/-- The characters after an opening quote up to the closing one, that one
included, and what follows. -/
def splitLiteral : List Char → List Char × List Char
  | [] => ([], [])
  | '"' :: rest => (['"'], rest)
  | '\\' :: '"' :: rest =>
    let (raw, after) := splitLiteral rest
    ('\\' :: '"' :: raw, after)
  | '\\' :: '\\' :: rest =>
    let (raw, after) := splitLiteral rest
    ('\\' :: '\\' :: raw, after)
  | c :: rest =>
    let (raw, after) := splitLiteral rest
    (c :: raw, after)

/-- The text that the characters after an opening quote stand for. -/
def literalText : List Char → List Char
  | [] => []
  | '"' :: _ => []
  | '\\' :: '"' :: rest => '"' :: literalText rest
  | '\\' :: '\\' :: rest => '\\' :: literalText rest
  | c :: rest => c :: literalText rest

theorem splitLiteral_append (cs : List Char) :
    (splitLiteral cs).1 ++ (splitLiteral cs).2 = cs := by
  fun_induction splitLiteral cs <;> simp_all

/-! ## Pieces -/

/-- One lexeme as it stands in the source: the gap before it and its own
characters, of which there is at least one. -/
structure Piece where
  gap : List Char
  first : Char
  others : List Char
  lexeme : Lexeme

def Piece.written (p : Piece) : List Char :=
  p.first :: p.others

/-- The lexeme that starts with `c`: its further characters, what it
says, and what follows it. -/
def splitLexeme (c : Char) (rest : List Char) : List Char × Lexeme × List Char :=
  if c = '"' then
    let (raw, after) := splitLiteral rest
    (raw, .str (String.ofList (literalText raw)), after)
  else if isNameStart c then
    let name := rest.takeWhile isNamePart
    (name, .ident (String.ofList (c :: name)), rest.dropWhile isNamePart)
  else ([], .punct c, rest)

theorem splitLexeme_append (c : Char) (rest : List Char) :
    (splitLexeme c rest).1 ++ (splitLexeme c rest).2.2 = rest := by
  unfold splitLexeme
  split
  · exact splitLiteral_append rest
  · split <;> simp

theorem length_splitLexeme_le (c : Char) (rest : List Char) :
    (splitLexeme c rest).2.2.length ≤ rest.length := by
  have h := congrArg List.length (splitLexeme_append c rest)
  simp at h
  omega

theorem length_splitGap_le (comment : Bool) (cs : List Char) :
    (splitGap comment cs).2.length ≤ cs.length := by
  have h := congrArg List.length (splitGap_append comment cs)
  simp at h
  omega

/-- The pieces of a text in order, and the gap after the last of them. -/
def pieces (cs : List Char) : List Piece × List Char :=
  match _h : splitGap false cs with
  | (gap, []) => ([], gap)
  | (gap, c :: rest) =>
    let lexed := splitLexeme c rest
    let (ps, lastGap) := pieces lexed.2.2
    (⟨gap, c, lexed.1, lexed.2.1⟩ :: ps, lastGap)
termination_by cs.length
decreasing_by
  have hle := length_splitGap_le false cs
  have hlex := length_splitLexeme_le c rest
  simp [_h] at hle
  omega

/-! ## Tokens -/

/-- The tokens of pieces that start at a byte offset. -/
def placePieces (offset : Nat) : List Piece → List Token
  | [] => []
  | p :: ps =>
    let start := offset + utf8Length p.gap
    let stop := start + utf8Length p.written
    ⟨p.lexeme, ⟨start, stop⟩⟩ :: placePieces stop ps

def tokens (source : String) : List Token :=
  placePieces 0 (pieces source.toList).1

end PagePreview
