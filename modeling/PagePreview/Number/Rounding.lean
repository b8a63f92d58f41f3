/-
PagePreview.Number.Rounding — from exact values to doubles.

Every operation on doubles is the exact operation followed by one
rounding, to the nearest double and on a tie to the even one.

* `divNearest` — the natural number nearest to a quotient.
* `Double.ofRatio` — the double nearest to a quotient.
* `Double.ofDecimal`, `Double.ofInt`, `Double.add` — through `ofRatio`.
* `Double.roundToNat` — the nearest natural number, halves going up.
-/
import PagePreview.Number.Double

namespace PagePreview

/-- The natural number nearest to `n / d`, the even one of two equally near. -/
def divNearest (n d : Nat) : Nat :=
  let q := n / d
  let r := n % d
  if 2 * r < d then q
  else if d < 2 * r then q + 1
  else q + q % 2

/-- The exponent of the leading binary digit of `n / d`, both positive. -/
def binaryOrder (n d : Nat) : Int :=
  let guess : Int := (n.log2 : Int) - (d.log2 : Int)
  if d * Nat.pow 2 guess.toNat ≤ n * Nat.pow 2 (-guess).toNat then guess else guess - 1

/-- The digits of a natural number in base ten, the most significant first. -/
def digitsOf (n : Nat) : List Nat :=
  if n < 10 then [n] else digitsOf (n / 10) ++ [n % 10]
termination_by n
decreasing_by omega

def ofDigits (ds : List Nat) : Nat :=
  ds.foldl (fun n d => 10 * n + d) 0

theorem ofDigits_append_singleton (ds : List Nat) (d : Nat) :
    ofDigits (ds ++ [d]) = 10 * ofDigits ds + d := by
  simp [ofDigits]

theorem ofDigits_digitsOf (n : Nat) : ofDigits (digitsOf n) = n := by
  fun_induction digitsOf n with
  | case1 n h => simp [ofDigits]
  | case2 n h ih => rw [ofDigits_append_singleton, ih]; omega

namespace Double

/-- A rounded significand and its exponent as a double. A significand that
the rounding carried to fifty-four bits moves to the next exponent, and
one beyond the largest double becomes infinite. -/
def ofRounded (negative : Bool) (significand : Nat) (exponent : Int) : Double :=
  if h : Canonical significand exponent then finite negative significand exponent h
  else if h : Canonical (significand / 2) (exponent + 1) then
    finite negative (significand / 2) (exponent + 1) h
  else infinite negative

/-- The double nearest to `n / d`, with a sign. -/
def ofRatio (negative : Bool) (n d : Nat) : Double :=
  if n = 0 then zero negative
  else
    let exponent := max (-1074) (binaryOrder n d - 52)
    ofRounded negative
      (divNearest (n * Nat.pow 2 (-exponent).toNat) (d * Nat.pow 2 exponent.toNat)) exponent

/-- The double nearest to `significand · 10 ^ exponent`. Values that are
far beyond the largest or far below the least positive double are settled
by their order of magnitude alone. -/
def ofDecimal (negative : Bool) (significand : Nat) (exponent : Int) : Double :=
  let order := (digitsOf significand).length + exponent
  if significand = 0 then zero negative
  else if 400 < order then infinite negative
  else if order < -400 then zero negative
  else ofRatio negative (significand * Nat.pow 10 exponent.toNat) (Nat.pow 10 (-exponent).toNat)

def ofInt (n : Int) : Double :=
  ofRatio (decide (n < 0)) n.natAbs 1

/-- A signed integer multiple of a power of two, rounded. -/
def ofScaled (n : Int) (exponent : Int) : Double :=
  ofRatio (decide (n < 0)) (n.natAbs * Nat.pow 2 exponent.toNat) (Nat.pow 2 (-exponent).toNat)

def signed (negative : Bool) (significand : Nat) : Int :=
  if negative then -(significand : Int) else significand

/-- The sum, rounded. A sum that vanishes is negative zero only where both
summands are negative. -/
def add : Double → Double → Double
  | nan, _ => nan
  | _, nan => nan
  | infinite s, infinite t => if s = t then infinite s else nan
  | infinite s, _ => infinite s
  | _, infinite t => infinite t
  | finite s m e _, finite t n f _ =>
    let low := min e f
    let sum := signed s m * Nat.pow 2 (e - low).toNat + signed t n * Nat.pow 2 (f - low).toNat
    if sum = 0 then zero (s && t) else ofScaled sum low

/-- The natural number nearest to the value, halves going up. Values below
zero, and those that are no numbers, give zero. -/
def roundToNat : Double → Nat
  | finite false m e _ =>
    (2 * m * Nat.pow 2 e.toNat + Nat.pow 2 (-e).toNat) / (2 * Nat.pow 2 (-e).toNat)
  | _ => 0

end Double

end PagePreview
