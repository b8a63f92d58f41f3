/-
PagePreview.Proofs.Text.ScriptLiteral — escaped texts as script literals.

A script reads what stands between single quotes one character after the
other. A backslash begins an escape, a quote ends the literal, and a line
feed or a carriage return in it is an error: the literal has to end in the
line in which it begins. What it stands for is a sequence of units of
sixteen bits, and different texts are different sequences.

Escaping takes care of backslashes and quotes, and of nothing else. So an
escaped text is read as the text if it is in one line, and is no literal if
it is not.

* `utf16` — the units of a text.
* `ScriptLiteral.step?` — what one character does.
* `ScriptLiteral.split?` — the literal that a text starts with, and what
  follows it.
* `ScriptLiteral.splitFrom?_escaped` — how an escaped text is read.
-/
import Mathlib.Logic.Function.Basic
import PagePreview.Json.Word
import PagePreview.Text.Escape

namespace PagePreview

/-! ## Units of sixteen bits -/

/-- The units of a code point: one, or a surrogate pair. -/
def codeUnits (n : Nat) : List Nat :=
  if n < 0x10000 then [n]
  else [0xD800 + (n - 0x10000) / 0x400, 0xDC00 + (n - 0x10000) % 0x400]

/-- The units of a text. -/
def utf16 (cs : List Char) : List Nat :=
  cs.flatMap fun c => codeUnits c.toNat

theorem utf16_cons (c : Char) (cs : List Char) : utf16 (c :: cs) = codeUnits c.toNat ++ utf16 cs :=
  rfl

namespace Json

theorem joinUnits?_single {n : Nat} (hhigh : isHighSurrogate n = false)
    (hlow : isLowSurrogate n = false) (rest : List StringPart) :
    joinUnits? (.unit n :: rest) = (joinUnits? rest).map (Char.ofNat n :: ·) := by
  cases rest with
  | nil => simp [joinUnits?, hhigh, hlow]
  | cons part rest => cases part <;> simp [joinUnits?, hhigh, hlow]

theorem joinUnits?_pair {high low : Nat} (hhigh : isHighSurrogate high = true)
    (hlow : isLowSurrogate low = true) (rest : List StringPart) :
    joinUnits? (.unit high :: .unit low :: rest) =
      (joinUnits? rest).map
        (Char.ofNat (0x10000 + (high - 0xD800) * 0x400 + (low - 0xDC00)) :: ·) := by
  simp [joinUnits?, hhigh, hlow]

/-- The units of a character are joined to the character. -/
theorem joinUnits?_codeUnits (c : Char) (rest : List StringPart) :
    joinUnits? ((codeUnits c.toNat).map .unit ++ rest) = (joinUnits? rest).map (c :: ·) := by
  have hvalid : c.toNat < 0xD800 ∨ 0xDFFF < c.toNat ∧ c.toNat < 0x110000 := c.valid
  unfold codeUnits
  split
  next hsmall =>
    have hhigh : isHighSurrogate c.toNat = false := by
      simp only [isHighSurrogate, Bool.and_eq_false_iff, decide_eq_false_iff_not]
      omega
    have hlow : isLowSurrogate c.toNat = false := by
      simp only [isLowSurrogate, Bool.and_eq_false_iff, decide_eq_false_iff_not]
      omega
    rw [List.map_singleton, List.singleton_append, joinUnits?_single hhigh hlow,
      Char.ofNat_toNat]
  next hlarge =>
    have hhigh : isHighSurrogate (0xD800 + (c.toNat - 0x10000) / 0x400) = true := by
      simp only [isHighSurrogate, Bool.and_eq_true, decide_eq_true_eq]
      omega
    have hlow : isLowSurrogate (0xDC00 + (c.toNat - 0x10000) % 0x400) = true := by
      simp only [isLowSurrogate, Bool.and_eq_true, decide_eq_true_eq]
      omega
    have hcode : 0x10000 + (0xD800 + (c.toNat - 0x10000) / 0x400 - 0xD800) * 0x400 +
        (0xDC00 + (c.toNat - 0x10000) % 0x400 - 0xDC00) = c.toNat := by
      omega
    rw [List.map_cons, List.map_singleton, List.cons_append, List.singleton_append,
      joinUnits?_pair hhigh hlow, hcode, Char.ofNat_toNat]

theorem joinUnits?_utf16 : ∀ cs : List Char, joinUnits? ((utf16 cs).map .unit) = some cs
  | [] => rfl
  | c :: cs => by
      rw [utf16_cons, List.map_append, joinUnits?_codeUnits, joinUnits?_utf16 cs, Option.map_some]

end Json

/-- No two texts have the same units. -/
theorem utf16_injective : Function.Injective utf16 := by
  intro cs ds h
  have hjoin := Json.joinUnits?_utf16 cs
  rw [h, Json.joinUnits?_utf16] at hjoin
  exact (Option.some.inj hjoin).symm

/-! ## Reading a literal -/

namespace ScriptLiteral

/-- Where in a literal a reader is. -/
inductive Place
  /-- Between characters. -/
  | text
  /-- Behind a backslash. -/
  | escape
  /-- Behind a backslash and a carriage return. -/
  | continued
  /-- In an escape by octal digits, of which at most `room` may follow. -/
  | octal (value room : Nat)
  /-- In an escape by hexadecimal digits, of which so many are missing. -/
  | hex (value missing : Nat)
  /-- Behind a backslash and a `u`. -/
  | unicode
  /-- In an escape by hexadecimal digits between braces. -/
  | braced (value : Option Nat)
  deriving Repr, DecidableEq

/-- Characters that must not stand in a literal as they are. -/
def breaksLine (c : Char) : Bool :=
  c = '\n' ∨ c = '\r'

/-- What a character does that is not part of an escape: the units it adds,
and where the reader is then, which is nowhere if the literal is over. -/
def textStep? (c : Char) : Option (List Nat × Option Place) :=
  if c = '\'' then some ([], none)
  else if c = '\\' then some ([], some .escape)
  else if breaksLine c then none
  else some (codeUnits c.toNat, some .text)

/-- The control characters that are escaped by a letter. -/
def control? : Char → Option Char
  | 'b' => some '\x08'
  | 't' => some '\t'
  | 'n' => some '\n'
  | 'v' => some '\x0b'
  | 'f' => some '\x0c'
  | 'r' => some '\r'
  | _ => none

/-- What the character behind a backslash does. An escaped end of a line is
left out; a character that has no other meaning stands for itself. -/
def escapeStep (c : Char) : List Nat × Place :=
  if c = 'x' then ([], .hex 0 2)
  else if c = 'u' then ([], .unicode)
  else if c = '\r' then ([], .continued)
  else if c = '\n' ∨ c = '\u2028' ∨ c = '\u2029' then ([], .text)
  else match digitInBase? 8 c with
    | some d => ([], .octal d (if d < 4 then 2 else 1))
    | none => (codeUnits ((control? c).getD c).toNat, .text)

def hexStep? (value missing : Nat) (c : Char) : Option (List Nat × Place) :=
  (digitInBase? 16 c).map fun d =>
    if missing ≤ 1 then ([16 * value + d], .text) else ([], .hex (16 * value + d) (missing - 1))

def bracedStep? (value : Option Nat) (c : Char) : Option (List Nat × Place) :=
  if c = '}' then value.map fun n => (codeUnits n, .text)
  else ((digitInBase? 16 c).filter fun d => 16 * value.getD 0 + d < 0x110000).map fun d =>
    ([], .braced (some (16 * value.getD 0 + d)))

/-- What one character does. -/
def step? : Place → Char → Option (List Nat × Option Place)
  | .text, c => textStep? c
  | .escape, c => some ((escapeStep c).map id some)
  | .continued, c => if c = '\n' then some ([], some .text) else textStep? c
  | .octal value room, c =>
    match (digitInBase? 8 c).filter fun _ => 0 < room with
    | some d => some ([], some (.octal (8 * value + d) (room - 1)))
    | none => (textStep? c).map fun (units, next) => (value :: units, next)
  | .hex value missing, c => (hexStep? value missing c).map (·.map id some)
  | .unicode, c =>
    if c = '{' then some ([], some (.braced none)) else (hexStep? 0 4 c).map (·.map id some)
  | .braced value, c => (bracedStep? value c).map (·.map id some)

/-- The units of a literal from a place in it, and what follows it. -/
def splitFrom? : Place → List Char → Option (List Nat × List Char)
  | _, [] => none
  | place, c :: rest =>
    match step? place c with
    | none => none
    | some (units, none) => some (units, rest)
    | some (units, some next) =>
      (splitFrom? next rest).map fun (more, after) => (units ++ more, after)

/-- The units of the literal that a text starts with, and what follows it. -/
def split? : List Char → Option (List Nat × List Char)
  | '\'' :: rest => splitFrom? .text rest
  | _ => none

/-- What a text stands for that is a literal and nothing else. -/
def units? (literal : String) : Option (List Nat) :=
  ((split? literal.toList).filter (·.2 = [])).map (·.1)

/-! ## Escaped texts -/

theorem splitFrom?_quote (rest : List Char) : splitFrom? .text ('\'' :: rest) = some ([], rest) :=
  rfl

theorem splitFrom?_of_step {place next : Place} {c : Char} {units : List Nat}
    (h : step? place c = some (units, some next)) (rest : List Char) :
    splitFrom? place (c :: rest) =
      (splitFrom? next rest).map fun (more, after) => (units ++ more, after) := by
  rw [splitFrom?, h]

theorem splitFrom?_break {c : Char} (h : breaksLine c) (rest : List Char) :
    splitFrom? .text (c :: rest) = none := by
  have hstep : step? .text c = none := by
    rcases of_decide_eq_true h with rfl | rfl <;> rfl
  rw [splitFrom?, hstep]

theorem splitFrom?_char {c : Char} (hquote : c ≠ '\'') (hbackslash : c ≠ '\\')
    (hline : breaksLine c = false) (rest : List Char) :
    splitFrom? .text (c :: rest) =
      (splitFrom? .text rest).map fun (units, after) => (codeUnits c.toNat ++ units, after) := by
  have hstep : step? .text c = some (codeUnits c.toNat, some .text) := by
    simp [step?, textStep?, hquote, hbackslash, hline]
  exact splitFrom?_of_step hstep rest

/-- A backslash in front of a quote or of a backslash is left out. -/
theorem splitFrom?_escape {c : Char} (h : c = '\'' ∨ c = '\\') (rest : List Char) :
    splitFrom? .text ('\\' :: c :: rest) =
      (splitFrom? .text rest).map fun (units, after) => (codeUnits c.toNat ++ units, after) := by
  have hbackslash : step? .text '\\' = some ([], some .escape) := rfl
  have hstep : step? .escape c = some (codeUnits c.toNat, some .text) := by
    rcases h with rfl | rfl <;> rfl
  rw [splitFrom?_of_step hbackslash, splitFrom?_of_step hstep]
  cases splitFrom? .text rest <;> rfl

/-- An escaped character is read as the character, unless it breaks the
line. -/
theorem splitFrom?_scriptChar (c : Char) (rest : List Char) :
    splitFrom? .text (scriptChar c ++ rest) =
      if breaksLine c then none
      else (splitFrom? .text rest).map fun (units, after) => (codeUnits c.toNat ++ units, after) := by
  unfold scriptChar
  split
  next hbackslash =>
    subst hbackslash
    exact splitFrom?_escape (.inr rfl) rest
  next hbackslash =>
    split
    next hquote =>
      subst hquote
      exact splitFrom?_escape (.inl rfl) rest
    next hquote =>
      cases hline : breaksLine c with
      | true => exact splitFrom?_break hline rest
      | false => exact splitFrom?_char hquote hbackslash hline rest

/-- An escaped text, with a quote behind it, is read as the text if it is in
one line. If it is not, then no literal has begun in front of it. -/
theorem splitFrom?_escaped (rest : List Char) : ∀ cs : List Char,
    splitFrom? .text (cs.flatMap scriptChar ++ '\'' :: rest) =
      if cs.any breaksLine then none else some (utf16 cs, rest)
  | [] => splitFrom?_quote rest
  | c :: cs => by
      rw [List.flatMap_cons, List.append_assoc, splitFrom?_scriptChar, splitFrom?_escaped rest cs,
        List.any_cons, utf16_cons]
      cases breaksLine c <;> cases cs.any breaksLine <;> rfl

theorem any_breaksLine_iff {cs : List Char} :
    cs.any breaksLine = true ↔ '\n' ∈ cs ∨ '\r' ∈ cs := by
  induction cs with
  | nil => simp
  | cons c cs ih =>
    simp only [List.any_cons, Bool.or_eq_true, ih, List.mem_cons, breaksLine, decide_eq_true_eq]
    grind

theorem split?_escaped (s : String) (rest : List Char) :
    split? ('\'' :: (escapeScript s).toList ++ '\'' :: rest) =
      if '\n' ∈ s.toList ∨ '\r' ∈ s.toList then none else some (utf16 s.toList, rest) := by
  simp only [← any_breaksLine_iff]
  rw [escapeScript, String.toList_ofList]
  exact splitFrom?_escaped rest s.toList

theorem units?_escaped (s : String) :
    units? ("'" ++ escapeScript s ++ "'") =
      if '\n' ∈ s.toList ∨ '\r' ∈ s.toList then none else some (utf16 s.toList) := by
  have hchars : ("'" ++ escapeScript s ++ "'").toList =
      '\'' :: (escapeScript s).toList ++ ['\''] := by
    simp
  rw [units?, hchars, split?_escaped]
  split <;> rfl

end ScriptLiteral

end PagePreview
