/-
PagePreview.Proofs.Number.Nearest — the double that a number rounds to.

The reals that round to a double are an interval, and the intervals of two
doubles have nothing in common: what a quotient is rounded to is a double
to which it rounds, so the double is known from any number in the interval.

* `divNearest_spec` — the nearest natural number is within half a unit.
* `RoundsTo.convex`, `RoundsTo.unique`, `RoundsTo.mono` — the intervals.
* `Double.ofRatio_eq_finite_iff`, `Double.ofDecimal_eq_finite_iff` — what is
  rounded to a double and what is read as one.
-/
import PagePreview.Proofs.Number.Decimal

namespace PagePreview

/-! ## The nearest natural number -/

/-- The nearest natural number is within half a unit of the quotient, and
nearer if it is odd. -/
theorem divNearest_spec {a b : Nat} (hb : 0 < b) :
    (2 * divNearest a b * b ≤ 2 * a + b ∧ 2 * a ≤ (2 * divNearest a b + 1) * b) ∧
      (divNearest a b % 2 = 1 →
        2 * divNearest a b * b < 2 * a + b ∧ 2 * a < (2 * divNearest a b + 1) * b) := by
  have hdiv : b * (a / b) + a % b = a := Nat.div_add_mod a b
  have hmod : a % b < b := Nat.mod_lt a hb
  unfold divNearest
  generalize a / b = q at hdiv ⊢
  generalize a % b = r at hdiv hmod ⊢
  have hlow : 2 * q * b = 2 * (b * q) := by ring
  have hhigh : (2 * q + 1) * b = 2 * (b * q) + b := by ring
  have hlow' : 2 * (q + 1) * b = 2 * (b * q) + 2 * b := by ring
  have hhigh' : (2 * (q + 1) + 1) * b = 2 * (b * q) + 3 * b := by ring
  simp only
  split_ifs
  · rw [hlow, hhigh]
    omega
  · rw [hlow', hhigh']
    omega
  · rcases Nat.mod_two_eq_zero_or_one q with heven | hodd
    · rw [heven, Nat.add_zero, hlow, hhigh]
      omega
    · rw [hodd, hlow', hhigh']
      omega

/-- The same from the value of the quotient. -/
theorem divNearest_spec_of_value {a b : Nat} {x : ℚ} (hb : 0 < b) (hx : (a : ℚ) = x * b) :
    (2 * (divNearest a b : ℚ) - 1 ≤ 2 * x ∧ 2 * x ≤ 2 * (divNearest a b : ℚ) + 1) ∧
      (divNearest a b % 2 = 1 →
        2 * (divNearest a b : ℚ) - 1 < 2 * x ∧ 2 * x < 2 * (divNearest a b : ℚ) + 1) := by
  obtain ⟨⟨hlow, hhigh⟩, hodd⟩ := divNearest_spec (a := a) hb
  have hb' : (0 : ℚ) < b := by exact_mod_cast hb
  generalize divNearest a b = m at *
  refine ⟨⟨?_, ?_⟩, fun h => ⟨?_, ?_⟩⟩
  · have hcast : (2 * m * b : ℚ) ≤ 2 * a + b := by exact_mod_cast hlow
    refine le_of_mul_le_mul_right ?_ hb'
    linarith
  · have hcast : (2 * a : ℚ) ≤ (2 * m + 1) * b := by exact_mod_cast hhigh
    refine le_of_mul_le_mul_right ?_ hb'
    linarith
  · have hcast : (2 * m * b : ℚ) < 2 * a + b := by exact_mod_cast (hodd h).1
    refine lt_of_mul_lt_mul_right ?_ hb'.le
    linarith
  · have hcast : (2 * a : ℚ) < (2 * m + 1) * b := by exact_mod_cast (hodd h).2
    refine lt_of_mul_lt_mul_right ?_ hb'.le
    linarith

/-! ## The reals that round to a double -/

namespace RoundsTo

variable {m m' : Nat} {e e' : Int} {x y z : ℚ}

/-- Inside the interval it does not matter whether its ends belong to it. -/
theorem of_lt (hlow : (Decimal.lowQuarters m e : ℚ) * 2 ^ e < 4 * x)
    (hhigh : 4 * x < (Decimal.highQuarters m : ℚ) * 2 ^ e) : RoundsTo m e x := by
  unfold RoundsTo
  split
  · exact ⟨hlow.le, hhigh.le⟩
  · exact ⟨hlow, hhigh⟩

/-- They are an interval. -/
theorem convex (hx : RoundsTo m e x) (hz : RoundsTo m e z) (hxy : x ≤ y) (hyz : y ≤ z) :
    RoundsTo m e y := by
  unfold RoundsTo at *
  split_ifs at *
  · exact ⟨by linarith [hx.1], by linarith [hz.2]⟩
  · exact ⟨by linarith [hx.1], by linarith [hz.2]⟩

/-- A number rounds to one double. -/
theorem unique (hc : Canonical m e) (hc' : Canonical m' e') (hm : m ≠ 0) (hm' : m' ≠ 0)
    (h : RoundsTo m e x) (h' : RoundsTo m' e' x) : m = m' ∧ e = e' := by
  have hx : ((x.num.natAbs : ℕ) : ℚ) / (x.den : ℕ) = x := by
    have hpos : 0 ≤ x.num := (Rat.num_pos.mpr (Decimal.pos_of_roundsTo hm h)).le
    rw [← Int.cast_natCast, Int.natAbs_of_nonneg hpos, Rat.num_div_den]
  rw [← hx] at h h'
  have heq := (Double.ofRatio_eq false hc hm x.den_nz h).symm.trans
    (Double.ofRatio_eq false hc' hm' x.den_nz h')
  cases heq
  exact ⟨rfl, rfl⟩

/-- Rounding does not change the order of two numbers. -/
theorem mono (hc : Canonical m e) (hc' : Canonical m' e') (hm : m ≠ 0) (hm' : m' ≠ 0)
    (h : RoundsTo m e x) (h' : RoundsTo m' e' y) (hxy : x ≤ y) :
    (m : ℚ) * 2 ^ e ≤ m' * 2 ^ e' := by
  have hself := Decimal.roundsTo_self hm e
  have hself' := Decimal.roundsTo_self hm' e'
  by_contra hlt
  rw [not_le] at hlt
  have hboth : m = m' ∧ e = e' := by
    rcases le_or_gt x (m' * 2 ^ e') with hle | hgt
    · exact unique hc hc' hm hm' (h.convex hself hle hlt.le) hself'
    · exact unique hc hc' hm hm' h (hself'.convex h' hgt.le hxy)
  obtain ⟨rfl, rfl⟩ := hboth
  exact lt_irrefl _ hlt

end RoundsTo

/-! ## Quotients -/

namespace Double

/-- The significand of a quotient is within half a unit of it, and nearer if
it is odd. -/
theorem significandAt_spec {n d : Nat} (hd : d ≠ 0) (e : Int) :
    ((2 * (significandAt n d e : ℚ) - 1) * 2 ^ e ≤ 2 * (n / d) ∧
        2 * (n / d : ℚ) ≤ (2 * significandAt n d e + 1) * 2 ^ e) ∧
      (significandAt n d e % 2 = 1 →
        (2 * (significandAt n d e : ℚ) - 1) * 2 ^ e < 2 * (n / d) ∧
          2 * (n / d : ℚ) < (2 * significandAt n d e + 1) * 2 ^ e) := by
  have hunit : (0 : ℚ) < 2 ^ e := by positivity
  have hb : 0 < d * Nat.pow 2 e.toNat :=
    Nat.mul_pos (Nat.pos_of_ne_zero hd) (Nat.pow_pos (by omega))
  have hspec := divNearest_spec_of_value hb (scaled_eq (n := n) hd e)
  rwa [← mul_div_assoc, le_div_iff₀ hunit, div_le_iff₀ hunit, lt_div_iff₀ hunit,
    div_lt_iff₀ hunit] at hspec

/-- What lies within half a unit of a double rounds to it. Below a power of
two it has to lie within a quarter. -/
theorem roundsTo_of_bounds {m : Nat} {e : Int} {x : ℚ} (hm : m ≠ 0)
    (h : (2 * (m : ℚ) - 1) * 2 ^ e ≤ 2 * x ∧ 2 * x ≤ (2 * m + 1) * 2 ^ e)
    (hodd : m % 2 = 1 → (2 * (m : ℚ) - 1) * 2 ^ e < 2 * x ∧ 2 * x < (2 * m + 1) * 2 ^ e)
    (hpower : m = Nat.pow 2 52 ∧ -1074 < e → (4 * (m : ℚ) - 1) * 2 ^ e ≤ 4 * x) :
    RoundsTo m e x := by
  have hhigh : (Decimal.highQuarters m : ℚ) = 4 * m + 2 := by
    rw [Decimal.highQuarters]
    push_cast
    ring
  rw [RoundsTo, hhigh, cast_lowQuarters hm]
  by_cases hclose : m = Nat.pow 2 52 ∧ -1074 < e
  · have heven : m % 2 = 0 := hclose.1 ▸ rfl
    rw [if_pos hclose, if_pos heven]
    exact ⟨hpower hclose, by linarith [h.2]⟩
  · rw [if_neg hclose]
    split_ifs with heven
    · exact ⟨by linarith [h.1], by linarith [h.2]⟩
    · obtain ⟨hlow, hhigh⟩ := hodd (by omega)
      exact ⟨by linarith, by linarith⟩

/-- What a quotient is rounded to is a double that it rounds to. -/
theorem roundsTo_of_ofRatio {n d m : Nat} {e : Int} {negative s : Bool} {hc : Canonical m e}
    (hd : d ≠ 0) (hm : m ≠ 0) (h : ofRatio negative n d = finite s m e hc) :
    negative = s ∧ RoundsTo m e (n / d) := by
  have hn : n ≠ 0 := by
    rintro rfl
    rw [ofRatio, if_pos rfl, zero] at h
    cases h
    exact hm rfl
  obtain ⟨hple, hplt⟩ := binaryOrder_spec hn hd
  rw [ofRatio_eq_ofRounded negative hn rfl] at h
  generalize hexponent : max (-1074) (binaryOrder n d - 52) = E at h
  obtain ⟨hlong, hfull⟩ := significandAt_cases hn hd hexponent
  obtain ⟨hbounds, hodd⟩ := significandAt_spec (n := n) hd E
  generalize significandAt n d E = M at *
  have hunit : (0 : ℚ) < 2 ^ E := by positivity
  have hpow : Nat.pow 2 53 = 2 ^ 53 ∧ Nat.pow 2 52 = 2 ^ 52 := ⟨rfl, rfl⟩
  unfold ofRounded at h
  split_ifs at h with hcanonical hcarried
  · cases h
    refine ⟨rfl, roundsTo_of_bounds hm hbounds hodd ?_⟩
    rintro ⟨hM, hE⟩
    -- The leading digit of the quotient is that of the double.
    have hleading : (2 : ℚ) ^ 52 * 2 ^ e ≤ n / d := by
      have hp : binaryOrder n d = 52 + e := by omega
      rw [hp, zpow_add₀ two_ne_zero] at hple
      exact_mod_cast hple
    rw [hM]
    push_cast [Nat.pow_eq]
    linarith
  · cases h
    -- The significand was rounded up to fifty-four bits.
    obtain rfl : M = 2 ^ 53 := by
      unfold Canonical at hcanonical hcarried
      omega
    have hbelow : (n / d : ℚ) < 2 ^ 53 * 2 ^ E := by
      have hle : (2 : ℚ) ^ (binaryOrder n d + 1) ≤ 2 ^ (53 + E) :=
        zpow_le_zpow_right₀ one_le_two (by omega)
      rw [zpow_add₀ two_ne_zero 53 E] at hle
      exact hplt.trans_le hle
    have hhalf : ((2 ^ 53 / 2 : ℕ) : ℚ) = 2 ^ 52 := by norm_num
    have hdouble : (2 : ℚ) ^ (E + 1) = 2 * 2 ^ E := by rw [zpow_add_one₀ two_ne_zero, mul_comm]
    have hlow := hbounds.1
    push_cast at hlow
    refine ⟨rfl, roundsTo_of_bounds hm ?_ (fun h => absurd h (by decide)) fun _ => ?_⟩
    · rw [hhalf, hdouble]
      exact ⟨by linarith, by linarith⟩
    · rw [hhalf, hdouble]
      linarith

/-- Quotients are rounded to the double that they round to. -/
theorem ofRatio_eq_finite_iff {n d m : Nat} {e : Int} {negative : Bool} {hc : Canonical m e}
    (hd : d ≠ 0) (hm : m ≠ 0) :
    ofRatio negative n d = finite negative m e hc ↔ RoundsTo m e (n / d) :=
  ⟨fun h => (roundsTo_of_ofRatio hd hm h).2, ofRatio_eq negative hc hm hd⟩

/-- A decimal is read as the double that it rounds to. -/
theorem ofDecimal_eq_finite_iff {m s : Nat} {e k : Int} {negative : Bool} {hc : Canonical m e}
    (hm : m ≠ 0) :
    ofDecimal negative s k = finite negative m e hc ↔ RoundsTo m e (s * 10 ^ k) := by
  refine ⟨fun h => ?_, ofDecimal_eq negative hc hm⟩
  rw [ofDecimal] at h
  have hzero : zero negative ≠ finite negative m e hc := by
    intro h
    cases h
    exact hm rfl
  split_ifs at h with hs hlarge hsmall
  · exact absurd h hzero
  · exact absurd h hzero
  · have hpower : Nat.pow 10 (-k).toNat ≠ 0 := (Nat.pow_pos (by omega)).ne'
    have hround := (ofRatio_eq_finite_iff hpower hm).mp h
    rwa [mul_pow_div_pow (by omega)] at hround

end Double

end PagePreview
