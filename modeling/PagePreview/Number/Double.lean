/-
PagePreview.Number.Double — double-precision numbers.

A finite double is `significand · 2 ^ exponent` with a sign, in the one
form that is `Canonical`: fifty-three bits at most, and fewer only at the
least exponent. Equality of doubles is then equality of their bits, with
a single value that is not a number.

* `Double` — the type; zeros keep their sign.
* `ofBits`, `toBits` — the interchange format of sixty-four bits.
-/

namespace PagePreview

/-- The significands and exponents of finite doubles. -/
def Canonical (significand : Nat) (exponent : Int) : Prop :=
  significand < Nat.pow 2 53 ∧ -1074 ≤ exponent ∧ exponent ≤ 971 ∧
    (Nat.pow 2 52 ≤ significand ∨ exponent = -1074)

instance (m : Nat) (e : Int) : Decidable (Canonical m e) :=
  inferInstanceAs (Decidable (_ ∧ _ ∧ _ ∧ _))

inductive Double
  | nan
  | infinite (negative : Bool)
  | finite (negative : Bool) (significand : Nat) (exponent : Int)
      (canonical : Canonical significand exponent)
  deriving DecidableEq

namespace Double

/-- Zero, with its sign. -/
def zero (negative : Bool) : Double :=
  .finite negative 0 (-1074) (by decide)

def one : Double :=
  .finite false (Nat.pow 2 52) (-52) (by decide)

/-- Neither infinite nor without a value. -/
def isFinite : Double → Bool
  | finite .. => true
  | _ => false

theorem canonical_fraction {f : Nat} (h : f < Nat.pow 2 52) : Canonical f (-1074) := by
  have hpow : Nat.pow 2 53 = Nat.pow 2 52 + Nat.pow 2 52 := by decide
  unfold Canonical
  omega

theorem canonical_scaled {f b : Nat} (h : f < Nat.pow 2 52) (hb : b ≠ 0) (hb' : b < 2047) :
    Canonical (Nat.pow 2 52 + f) ((b : Int) - 1075) := by
  have hpow : Nat.pow 2 53 = Nat.pow 2 52 + Nat.pow 2 52 := by decide
  unfold Canonical
  omega

/-- The double with given bits: a sign, eleven bits of exponent, fifty-two
of fraction. -/
def ofBits (bits : UInt64) : Double :=
  let n : Nat := bits.toNat
  let negative := decide (Nat.pow 2 63 ≤ n)
  let fraction : Nat := n % Nat.pow 2 52
  let biased : Nat := n / Nat.pow 2 52 % Nat.pow 2 11
  have hf : fraction < Nat.pow 2 52 := Nat.mod_lt _ (by decide)
  if biased = 2047 then
    if fraction = 0 then infinite negative else nan
  else if h : biased = 0 then finite negative fraction (-1074) (canonical_fraction hf)
  else if hb : biased < 2047 then
    finite negative (Nat.pow 2 52 + fraction) ((biased : Int) - 1075) (canonical_scaled hf h hb)
  else nan

def signBit (negative : Bool) : Nat :=
  if negative then Nat.pow 2 63 else 0

def toBits : Double → UInt64
  | nan => UInt64.ofNat (2047 * Nat.pow 2 52 + Nat.pow 2 51)
  | infinite negative => UInt64.ofNat (signBit negative + 2047 * Nat.pow 2 52)
  | finite negative m e _ =>
    if m < Nat.pow 2 52 then UInt64.ofNat (signBit negative + m)
    else UInt64.ofNat (signBit negative + (e + 1075).toNat * Nat.pow 2 52 + (m - Nat.pow 2 52))

end Double

end PagePreview
