/-
PagePreview.Text.Blank — blanks and white space.

* `isBlank` — the four characters that separate the tokens of a page
  description and of a JSON text.
* `isWhiteSpace` — the twenty-five characters with the Unicode property.
* `trim` — a text without white space at its ends.
* `words` — the maximal runs of other characters.
-/

namespace PagePreview

def isBlank (c : Char) : Bool :=
  c == ' ' || c == '\t' || c == '\n' || c == '\r'

/-- The ranges of characters that have the Unicode property White_Space. -/
def whiteSpaceRanges : List (Nat × Nat) :=
  [(0x0009, 0x000D), (0x0020, 0x0020), (0x0085, 0x0085), (0x00A0, 0x00A0),
   (0x1680, 0x1680), (0x2000, 0x200A), (0x2028, 0x2029), (0x202F, 0x202F),
   (0x205F, 0x205F), (0x3000, 0x3000)]

def isWhiteSpace (c : Char) : Bool :=
  whiteSpaceRanges.any fun r => r.1 ≤ c.toNat && c.toNat ≤ r.2

/-- A text without white space at its ends. -/
def trim (cs : List Char) : List Char :=
  ((cs.dropWhile isWhiteSpace).reverse.dropWhile isWhiteSpace).reverse

/-- The words of a text, in order; a run of white space separates two of
them. -/
def words (cs : List Char) : List (List Char) :=
  (cs.splitOnP isWhiteSpace).filter (· ≠ [])

end PagePreview
