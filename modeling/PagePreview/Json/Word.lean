/-
PagePreview.Json.Word — the words of a JSON text.

Words are separated by the grammar alone: no two words that carry a value
ever follow one another, so blanks only matter inside of strings.

A string is grammatical as soon as its escapes are, but it stands for a
text only if its surrogate escapes come in pairs; likewise a number is
grammatical whatever its size, but has to have a finite value. Such words
are kept, with no value: in a part of a text that nobody asks for, they
do no harm.

* `Word` — the words.
* `nextWord?` — the word a text starts with, and what follows it.
* `words?` — all words of a text.
-/
import PagePreview.Json.Basic
import PagePreview.Number.Numeral
import PagePreview.Text.Split

namespace PagePreview

namespace Json

/-- A word of a JSON text. -/
inductive Word
  | openArray
  | closeArray
  | openObject
  | closeObject
  | comma
  | colon
  | null
  | bool (b : Bool)
  /-- A string, with its text if it has one. -/
  | string (s : Option String)
  /-- A number, with its value if it has one. -/
  | number (n : Option Number)
  deriving DecidableEq

/-! ## Strings -/

/-- A part of a string as written: a character, or a unit of sixteen bits. -/
inductive StringPart
  | char (c : Char)
  | unit (n : Nat)
  deriving Repr, DecidableEq

/-- The character that a short escape stands for. -/
def escaped? : Char → Option Char
  | '"' => some '"'
  | '\\' => some '\\'
  | '/' => some '/'
  | 'b' => some '\x08'
  | 'f' => some '\x0c'
  | 'n' => some '\n'
  | 'r' => some '\r'
  | 't' => some '\t'
  | _ => none

def hex4? (a b c d : Char) : Option Nat :=
  ([a, b, c, d].mapM (digitInBase? 16)).map (·.foldl (fun n d => 16 * n + d) 0)

/-- The content of a string up to its closing quote, and what follows. -/
def splitString? : List Char → Option (List StringPart × List Char)
  | [] => none
  | '"' :: rest => some ([], rest)
  | '\\' :: 'u' :: a :: b :: c :: d :: rest =>
    match hex4? a b c d, splitString? rest with
    | some n, some (content, after) => some (.unit n :: content, after)
    | _, _ => none
  | '\\' :: e :: rest =>
    match escaped? e, splitString? rest with
    | some c, some (content, after) => some (.char c :: content, after)
    | _, _ => none
  | c :: rest =>
    if c.toNat < 0x20 ∨ c = '\\' then none
    else match splitString? rest with
      | some (content, after) => some (.char c :: content, after)
      | none => none

/-- Whether a unit is the first half of a surrogate pair. -/
def isHighSurrogate (n : Nat) : Bool :=
  0xD800 ≤ n && n < 0xDC00

/-- Whether a unit is the second half of a surrogate pair. -/
def isLowSurrogate (n : Nat) : Bool :=
  0xDC00 ≤ n && n < 0xE000

/-- The characters that units stand for; a half of a pair that stands alone
stands for none. -/
def joinUnits? : List StringPart → Option (List Char)
  | [] => some []
  | .char c :: rest => (joinUnits? rest).map (c :: ·)
  | .unit high :: .unit low :: rest =>
    if isHighSurrogate high then
      if isLowSurrogate low then
        (joinUnits? rest).map
          (Char.ofNat (0x10000 + (high - 0xD800) * 0x400 + (low - 0xDC00)) :: ·)
      else none
    else if isLowSurrogate high then none
    else (joinUnits? (.unit low :: rest)).map (Char.ofNat high :: ·)
  | .unit n :: rest =>
    if isHighSurrogate n ∨ isLowSurrogate n then none
    else (joinUnits? rest).map (Char.ofNat n :: ·)

/-! ## Numbers -/

/-- The digits before the point; a zero stands alone. -/
def splitWhole? : List Char → Option (List Nat × List Char)
  | '0' :: rest => some ([0], rest)
  | cs =>
    let (ds, after) := splitDigits cs
    if ds = [] then none else some (ds, after)

/-- The digits after a point, of which there has to be one. -/
def splitPoint? : List Char → Option (Option (List Nat) × List Char)
  | '.' :: rest =>
    let (ds, after) := splitDigits rest
    if ds = [] then none else some (some ds, after)
  | cs => some (none, cs)

/-- A double as a number, unless it is beyond all finite ones. -/
def Number.ofFinite? (x : Double) : Option Number :=
  if x.isFinite then some (.double x) else none

/-- The value of a number without point and exponent: an integer if it fits
into sixty-four bits, with or without a sign, and a double otherwise. Zero
with a minus sign is a double, as no integer has that sign. -/
def Number.ofWhole? (negative : Bool) (ds : List Nat) : Option Number :=
  let n : Int := ofDigits ds
  if negative then
    if n = 0 then some (.double (Double.zero true))
    else if n ≤ Nat.pow 2 63 then some (.integer (-n))
    else ofFinite? (Numeral.toDouble ⟨true, ds, [], none⟩)
  else if n < Nat.pow 2 64 then some (.integer n)
  else ofFinite? (Numeral.toDouble ⟨false, ds, [], none⟩)

/-- A minus sign in front of a text, and what follows it. -/
def splitMinus : List Char → Bool × List Char
  | '-' :: rest => (true, rest)
  | cs => (false, cs)

/-- The number that a text starts with, and what follows it. -/
def splitNumber? (cs : List Char) : Option (Option Number × List Char) := do
  let (negative, unsigned) := splitMinus cs
  let (whole, afterWhole) ← splitWhole? unsigned
  let (fraction, afterPoint) ← splitPoint? afterWhole
  let (exponent, after) ← splitExponent? afterPoint
  let value :=
    if fraction = none ∧ exponent = none then Number.ofWhole? negative whole
    else Number.ofFinite? (Numeral.toDouble ⟨negative, whole, fraction.getD [], exponent⟩)
  some (value, after)

/-! ## Words -/

/-- The word of a given spelling in front of a text. -/
def literal? (spelling : String) (word : Word) (cs : List Char) : Option (Word × List Char) :=
  (dropStart? spelling.toList cs).map (word, ·)

/-- The word a text starts with, and what follows it. -/
def nextWord? : List Char → Option (Word × List Char)
  | [] => none
  | '[' :: rest => some (.openArray, rest)
  | ']' :: rest => some (.closeArray, rest)
  | '{' :: rest => some (.openObject, rest)
  | '}' :: rest => some (.closeObject, rest)
  | ',' :: rest => some (.comma, rest)
  | ':' :: rest => some (.colon, rest)
  | '"' :: rest =>
    (splitString? rest).map fun r => (.string ((joinUnits? r.1).map String.ofList), r.2)
  | 'n' :: rest => literal? "ull" .null rest
  | 't' :: rest => literal? "rue" (.bool true) rest
  | 'f' :: rest => literal? "alse" (.bool false) rest
  | cs => (splitNumber? cs).map fun r => (.number r.1, r.2)

/-! ### What is left is shorter -/

theorem length_splitString?_lt {cs after : List Char} {content : List StringPart}
    (h : splitString? cs = some (content, after)) : after.length < cs.length := by
  fun_induction splitString? cs generalizing content after <;>
    (try rw [List.length_cons, List.length_cons]) <;> grind

theorem length_splitDigits_le (cs : List Char) : (splitDigits cs).2.length ≤ cs.length :=
  (List.dropWhile_sublist Char.isDigit).length_le

theorem length_splitDigits_lt {cs : List Char} (h : (splitDigits cs).1 ≠ []) :
    (splitDigits cs).2.length < cs.length := by
  cases cs with
  | nil => simp [splitDigits] at h
  | cons c rest =>
    have hle := (List.dropWhile_sublist Char.isDigit (l := rest)).length_le
    simp only [splitDigits, List.takeWhile_cons, List.dropWhile_cons] at h ⊢
    split
    · simp only [List.length_cons]; omega
    · rename_i hc; simp [hc] at h

theorem length_splitSign_le (cs : List Char) : (splitSign cs).2.length ≤ cs.length := by
  unfold splitSign; split <;> simp

theorem length_splitWhole?_lt {cs after : List Char} {ds : List Nat}
    (h : splitWhole? cs = some (ds, after)) : after.length < cs.length := by
  unfold splitWhole? at h
  split at h
  · simp_all
  · have := @length_splitDigits_lt cs
    grind

theorem length_splitPoint?_le {cs after : List Char} {ds : Option (List Nat)}
    (h : splitPoint? cs = some (ds, after)) : after.length ≤ cs.length := by
  unfold splitPoint? at h
  split at h
  · rename_i rest
    have := length_splitDigits_le rest
    grind
  · simp_all

theorem length_splitExponent?_le {cs after : List Char} {e : Option Int}
    (h : splitExponent? cs = some (e, after)) : after.length ≤ cs.length := by
  unfold splitExponent? at h
  split at h
  · simp_all
  · rename_i c rest
    have h1 := length_splitSign_le rest
    have h2 := length_splitDigits_le (splitSign rest).2
    grind

theorem length_splitMinus_le (cs : List Char) : (splitMinus cs).2.length ≤ cs.length := by
  unfold splitMinus; split <;> simp

theorem length_splitNumber?_lt {cs after : List Char} {n : Option Number}
    (h : splitNumber? cs = some (n, after)) : after.length < cs.length := by
  unfold splitNumber? at h
  simp only [Option.bind_eq_bind, Option.bind_eq_some_iff, Option.some.injEq, Prod.mk.injEq] at h
  obtain ⟨⟨whole, afterWhole⟩, hw, ⟨fraction, afterPoint⟩, hp, ⟨exponent, rest⟩, he, _, rfl⟩ := h
  have h1 := length_splitWhole?_lt hw
  have h2 := length_splitPoint?_le hp
  have h3 := length_splitExponent?_le he
  have h4 := length_splitMinus_le cs
  simp only at *
  omega

theorem length_literal?_le {spelling : String} {w word : Word} {cs after : List Char}
    (h : literal? spelling w cs = some (word, after)) : after.length ≤ cs.length := by
  simp only [literal?, Option.map_eq_some_iff, Prod.mk.injEq] at h
  obtain ⟨rest, hr, _, rfl⟩ := h
  exact length_dropStart?_le hr

theorem length_nextWord?_lt {cs after : List Char} {w : Word}
    (h : nextWord? cs = some (w, after)) : after.length < cs.length := by
  unfold nextWord? at h
  split at h
  case h_8 rest =>
    obtain ⟨⟨content, rest'⟩, hs, heq⟩ := Option.map_eq_some_iff.mp h
    have := length_splitString?_lt hs
    grind
  case h_9 rest => have := length_literal?_le h; simp only [List.length_cons]; omega
  case h_10 rest => have := length_literal?_le h; simp only [List.length_cons]; omega
  case h_11 rest => have := length_literal?_le h; simp only [List.length_cons]; omega
  case h_12 =>
    obtain ⟨⟨n, rest'⟩, hs, heq⟩ := Option.map_eq_some_iff.mp h
    have := length_splitNumber?_lt hs
    grind
  all_goals grind

/-- The words of a text, if it consists of words and blanks. -/
def words? (cs : List Char) : Option (List Word) :=
  match _h : cs.dropWhile isBlank with
  | [] => some []
  | c :: rest =>
    match _hw : nextWord? (c :: rest) with
    | none => none
    | some (w, after) => (words? after).map (w :: ·)
termination_by cs.length
decreasing_by
  have hle := (List.dropWhile_sublist isBlank (l := cs)).length_le
  have hlt := length_nextWord?_lt _hw
  rw [_h] at hle
  omega

end Json

end PagePreview
