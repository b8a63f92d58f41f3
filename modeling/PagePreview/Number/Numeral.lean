/-
PagePreview.Number.Numeral — reading numbers.

* `Numeral` — a sign, digits and an exponent, as they were written.
* `Numeral.ofText?` — a decimal numeral: digits with an optional point on
  either side of them, and an optional exponent.
* `Double.ofPageText` — the number that a value of the backend stands for.
  Blank text is zero, and text that is no number gives `Double.nan`.
-/
import PagePreview.Number.Rounding
import PagePreview.Text.Blank

namespace PagePreview

def digitValue (c : Char) : Nat :=
  c.toNat - 48

def splitDigits (cs : List Char) : List Nat × List Char :=
  ((cs.takeWhile Char.isDigit).map digitValue, cs.dropWhile Char.isDigit)

/-- An optional sign in front of a text, and what follows it. -/
def splitSign : List Char → Bool × List Char
  | '-' :: rest => (true, rest)
  | '+' :: rest => (false, rest)
  | cs => (false, cs)

/-- The exponent in front of a text, if one begins there, and what follows
it. An exponent that begins has to have a digit. -/
def splitExponent? : List Char → Option (Option Int × List Char)
  | [] => some (none, [])
  | c :: rest =>
    if c = 'e' ∨ c = 'E' then
      let (negative, unsigned) := splitSign rest
      let (ds, after) := splitDigits unsigned
      if ds = [] then none
      else some (some (if negative then -(ofDigits ds : Int) else ofDigits ds), after)
    else some (none, c :: rest)

/-- A decimal number as written: the digits before and after its point, and
its exponent if it has one. -/
structure Numeral where
  negative : Bool
  whole : List Nat
  fraction : List Nat
  exponent : Option Int
  deriving Repr, DecidableEq

namespace Numeral

def toDouble (n : Numeral) : Double :=
  Double.ofDecimal n.negative (ofDigits (n.whole ++ n.fraction))
    (n.exponent.getD 0 - n.fraction.length)

/-- Digits after a point, if there is a point. -/
def splitFraction : List Char → List Nat × List Char
  | '.' :: rest => splitDigits rest
  | cs => ([], cs)

/-- Reads a whole text as a decimal number. The point may stand on either
side of the digits, but there has to be a digit. -/
def ofText? (cs : List Char) : Option Numeral :=
  let (negative, unsigned) := splitSign cs
  let (whole, afterWhole) := splitDigits unsigned
  let (fraction, afterFraction) := splitFraction afterWhole
  if whole = [] ∧ fraction = [] then none
  else match splitExponent? afterFraction with
    | some (exponent, []) => some ⟨negative, whole, fraction, exponent⟩
    | _ => none

end Numeral

def digitInBase? (base : Nat) (c : Char) : Option Nat :=
  let value? :=
    if c.isDigit then some (c.toNat - 48)
    else if c.isLower then some (c.toNat - 87)
    else if c.isUpper then some (c.toNat - 55)
    else none
  value?.filter (· < base)

/-- Reads an unsigned integer of sixty-four bits in a base. A plus sign may
come first. -/
def wordInBase? (base : Nat) (cs : List Char) : Option Nat :=
  let digits := match cs with
    | '+' :: rest => rest
    | _ => cs
  if digits = [] then none
  else
    ((digits.mapM (digitInBase? base)).map (·.foldl (fun n d => base * n + d) 0)).filter
      (· < Nat.pow 2 64)

/-- The base that a text announces, and its digits. -/
def announcedBase? : List Char → Option (Nat × List Char)
  | '0' :: c :: rest =>
    if c = 'x' ∨ c = 'X' then some (16, rest)
    else if c = 'o' ∨ c = 'O' then some (8, rest)
    else if c = 'b' ∨ c = 'B' then some (2, rest)
    else none
  | _ => none

/-- The number that a text stands for. White space around it does not count. -/
def Double.ofPageText (text : String) : Double :=
  let cs := trim text.toList
  if cs = [] then zero false
  else match announcedBase? cs with
    | some (base, digits) =>
      match wordInBase? base digits with
      | some n => ofInt n
      | none => nan
    | none =>
      if cs = "Infinity".toList ∨ cs = "+Infinity".toList then infinite false
      else if cs = "-Infinity".toList then infinite true
      else match Numeral.ofText? cs with
        | some n => n.toDouble
        | none => nan

end PagePreview
