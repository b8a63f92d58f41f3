/-
PagePreview.Text.Position — byte offsets and the places they stand for.

* `utf8Length cs` — how many bytes the characters `cs` occupy.
* `Span` — a half-open range of byte offsets.
* `Position.ofOffset source offset` — the line and column of an offset:
  offsets past the end stand for the end, and an offset inside a
  character stands for the start of that character.
-/

namespace PagePreview

/-- The number of bytes that the characters occupy in UTF-8. -/
def utf8Length (cs : List Char) : Nat :=
  cs.foldr (fun c length => c.utf8Size + length) 0

@[simp] theorem utf8Length_nil : utf8Length [] = 0 := rfl

@[simp] theorem utf8Length_cons (c : Char) (cs : List Char) :
    utf8Length (c :: cs) = c.utf8Size + utf8Length cs := rfl

@[simp] theorem utf8Length_append (a b : List Char) :
    utf8Length (a ++ b) = utf8Length a + utf8Length b := by
  induction a with
  | nil => simp
  | cons c a ih => simp [ih, Nat.add_assoc]

/-- A range of byte offsets, `start` included and `stop` excluded. -/
structure Span where
  start : Nat
  stop : Nat
  deriving Repr, DecidableEq

/-- Both ends of the range, moved to `limit` where they lie beyond it. -/
def Span.clamp (limit : Nat) (s : Span) : Span :=
  ⟨min s.start limit, min s.stop limit⟩

/-- A place in a text: how many line ends come before it, and how many
characters stand between the last of them and it. -/
structure Position where
  line : Nat
  column : Nat
  deriving Repr, DecidableEq

namespace Position

def next (p : Position) (c : Char) : Position :=
  if c = '\n' then ⟨p.line + 1, 0⟩ else ⟨p.line, p.column + 1⟩

/-- Walks over every character that fits into the remaining bytes. -/
def walk (p : Position) (bytes : Nat) : List Char → Position
  | [] => p
  | c :: rest => if c.utf8Size ≤ bytes then walk (p.next c) (bytes - c.utf8Size) rest else p

/-- The place of a byte offset in a text. -/
def ofOffset (source : String) (offset : Nat) : Position :=
  walk ⟨0, 0⟩ offset source.toList

end Position

end PagePreview
