/-
PagePreview.Proofs.Number.Rounding — which quotients round to a double.

The reals that round to `m · 2 ^ e` are an interval: half a unit up, and
half a unit down, or a quarter of a unit if the doubles below lie twice as
close. Its ends belong to it if `m` is even. The rounding of a quotient
first finds its leading binary digit and then the nearest significand; both
depend on the value of the quotient only.

* `RoundsTo` — the interval.
* `divNearest_eq` — the nearest natural number, from its distance.
* `binaryOrder_eq` — the leading digit, from the size.
* `Double.ofRatio_eq` — a quotient in the interval gives the double.
* `Double.isFinite_ofRatio` — a quotient that is not too large gives a finite
  double.
-/
import Mathlib
import PagePreview.Number.Decimal

namespace PagePreview

/-- The reals that round to `m · 2 ^ e`, by their fourfold. -/
def RoundsTo (m : Nat) (e : Int) (x : ℚ) : Prop :=
  if m % 2 = 0 then
    (Decimal.lowQuarters m e : ℚ) * 2 ^ e ≤ 4 * x ∧ 4 * x ≤ (Decimal.highQuarters m : ℚ) * 2 ^ e
  else
    (Decimal.lowQuarters m e : ℚ) * 2 ^ e < 4 * x ∧ 4 * x < (Decimal.highQuarters m : ℚ) * 2 ^ e

/-- A power with an integer exponent as a quotient of natural ones. -/
theorem pow_toNat {b : ℚ} (hb : b ≠ 0) (e : Int) :
    b ^ e.toNat = b ^ e * b ^ (-e).toNat := by
  rcases Int.le_total 0 e with he | he
  · have hpos : (e.toNat : Int) = e := Int.toNat_of_nonneg he
    have hneg : (-e).toNat = 0 := by omega
    rw [hneg, ← zpow_natCast, hpos, pow_zero, mul_one]
  · have hneg : ((-e).toNat : Int) = -e := Int.toNat_of_nonneg (by omega)
    have hpos : e.toNat = 0 := by omega
    rw [hpos, ← zpow_natCast b (-e).toNat, hneg, ← zpow_add₀ hb, add_neg_cancel, zpow_zero,
      pow_zero]

/-- A multiple of such a power is a quotient of natural numbers. -/
theorem mul_pow_div_pow {b : Nat} (hb : b ≠ 0) (n : Nat) (k : Int) :
    ((n * Nat.pow b k.toNat : ℕ) : ℚ) / (Nat.pow b (-k).toNat : ℕ) = n * b ^ k := by
  have hb0 : (b : ℚ) ≠ 0 := by exact_mod_cast hb
  push_cast [Nat.pow_eq]
  rw [pow_toNat hb0 k]
  field_simp

/-! ## The nearest natural number -/

/-- A natural number within half a unit of a quotient is the nearest. An odd
one has to be nearer. -/
theorem divNearest_eq {a b m : Nat} (hb : 0 < b) (hlow : 2 * m * b ≤ 2 * a + b)
    (hhigh : 2 * a ≤ (2 * m + 1) * b)
    (hodd : m % 2 = 1 → 2 * m * b < 2 * a + b ∧ 2 * a < (2 * m + 1) * b) :
    divNearest a b = m := by
  have hdiv : b * (a / b) + a % b = a := Nat.div_add_mod a b
  have hmod : a % b < b := Nat.mod_lt a hb
  unfold divNearest
  generalize a / b = q at hdiv ⊢
  generalize a % b = r at hdiv hmod ⊢
  have hle : m ≤ q + 1 := by
    by_contra hlt
    have hprod : b * (q + 2) ≤ b * m := Nat.mul_le_mul_left b (by omega)
    nlinarith
  have hge : q ≤ m := by
    by_contra hlt
    have hprod : b * (m + 1) ≤ b * q := Nat.mul_le_mul_left b (by omega)
    nlinarith
  obtain rfl | rfl : m = q ∨ m = q + 1 := by omega
  · have htwice : 2 * m * b = 2 * (b * m) := by ring
    have hnext : (2 * m + 1) * b = 2 * (b * m) + b := by ring
    simp only [htwice, hnext] at *
    split_ifs <;> omega
  · have htwice : 2 * (q + 1) * b = 2 * (b * q) + 2 * b := by ring
    have hnext : (2 * (q + 1) + 1) * b = 2 * (b * q) + 3 * b := by ring
    simp only [htwice, hnext] at *
    split_ifs <;> omega

/-- The nearest natural number to a quotient, from the value of the quotient. -/
theorem divNearest_eq_of_value {a b m : Nat} {x : ℚ} (hb : 0 < b) (hx : (a : ℚ) = x * b)
    (hlow : 2 * (m : ℚ) - 1 ≤ 2 * x) (hhigh : 2 * x ≤ 2 * m + 1)
    (hodd : m % 2 = 1 → 2 * (m : ℚ) - 1 < 2 * x ∧ 2 * x < 2 * m + 1) : divNearest a b = m := by
  have hb' : (0 : ℚ) < b := by exact_mod_cast hb
  have hlow' := mul_le_mul_of_nonneg_right hlow hb'.le
  have hhigh' := mul_le_mul_of_nonneg_right hhigh hb'.le
  refine divNearest_eq hb ?_ ?_ fun h => ?_
  · have hcast : (2 * m * b : ℚ) ≤ 2 * a + b := by linarith
    exact_mod_cast hcast
  · have hcast : (2 * a : ℚ) ≤ (2 * m + 1) * b := by linarith
    exact_mod_cast hcast
  · have hlow'' := mul_lt_mul_of_pos_right (hodd h).1 hb'
    have hhigh'' := mul_lt_mul_of_pos_right (hodd h).2 hb'
    have hcast : (2 * m * b : ℚ) < 2 * a + b := by linarith
    have hcast' : (2 * a : ℚ) < (2 * m + 1) * b := by linarith
    exact ⟨by exact_mod_cast hcast, by exact_mod_cast hcast'⟩

theorem divNearest_le {a b k : Nat} (hb : 0 < b) (h : a ≤ k * b) : divNearest a b ≤ k := by
  have hdiv : b * (a / b) + a % b = a := Nat.div_add_mod a b
  have hle : a / b ≤ k := Nat.div_le_of_le_mul (by rwa [Nat.mul_comm])
  unfold divNearest
  generalize a / b = q at hdiv hle ⊢
  generalize a % b = r at hdiv ⊢
  obtain rfl | hlt := hle.eq_or_lt
  · have hr : r = 0 := by
      rw [Nat.mul_comm] at h
      omega
    simp only [hr]
    split_ifs <;> omega
  · simp only
    split_ifs <;> omega

theorem le_divNearest {a b k : Nat} (hb : 0 < b) (h : k * b ≤ a) : k ≤ divNearest a b := by
  have hle : k ≤ a / b := (Nat.le_div_iff_mul_le hb).mpr h
  unfold divNearest
  simp only
  split_ifs <;> omega

/-! ## The leading digit -/

theorem binaryOrder_spec {n d : Nat} (hn : n ≠ 0) (hd : d ≠ 0) :
    (2 : ℚ) ^ binaryOrder n d ≤ n / d ∧ (n / d : ℚ) < 2 ^ (binaryOrder n d + 1) := by
  have hd0 : (0 : ℚ) < d := by exact_mod_cast Nat.pos_of_ne_zero hd
  have hnl : ((2 ^ n.log2 : ℕ) : ℚ) ≤ n := by exact_mod_cast Nat.log2_self_le hn
  have hnu : (n : ℚ) < ((2 ^ (n.log2 + 1) : ℕ) : ℚ) := by exact_mod_cast Nat.lt_log2_self
  have hdl : ((2 ^ d.log2 : ℕ) : ℚ) ≤ d := by exact_mod_cast Nat.log2_self_le hd
  have hdu : (d : ℚ) < ((2 ^ (d.log2 + 1) : ℕ) : ℚ) := by exact_mod_cast Nat.lt_log2_self
  push_cast [← zpow_natCast] at hnl hnu hdl hdu
  set g : Int := (n.log2 : Int) - (d.log2 : Int) with hg
  have hlower : (2 : ℚ) ^ (g - 1) < n / d := by
    rw [lt_div_iff₀ hd0]
    calc (2 : ℚ) ^ (g - 1) * d < 2 ^ (g - 1) * 2 ^ ((d.log2 : Int) + 1) := by gcongr
      _ = 2 ^ (n.log2 : Int) := by rw [← zpow_add₀ two_ne_zero]; congr 1; omega
      _ ≤ n := hnl
  have hupper : (n / d : ℚ) < 2 ^ (g + 1) := by
    rw [div_lt_iff₀ hd0]
    calc (n : ℚ) < 2 ^ ((n.log2 : Int) + 1) := hnu
      _ = 2 ^ (g + 1) * 2 ^ (d.log2 : Int) := by rw [← zpow_add₀ two_ne_zero]; congr 1; omega
      _ ≤ 2 ^ (g + 1) * d := by gcongr
  have hguess : d * Nat.pow 2 g.toNat ≤ n * Nat.pow 2 (-g).toNat ↔ (2 : ℚ) ^ g ≤ n / d := by
    have hpos : (0 : ℚ) < 2 ^ (-g).toNat := by positivity
    rw [le_div_iff₀ hd0, ← Nat.cast_le (α := ℚ)]
    push_cast [Nat.pow_eq]
    rw [pow_toNat two_ne_zero g, ← mul_assoc, mul_le_mul_iff_of_pos_right hpos, mul_comm]
  unfold binaryOrder
  simp only [← hg]
  split_ifs with h
  · exact ⟨hguess.mp h, hupper⟩
  · rw [hguess, not_le] at h
    exact ⟨hlower.le, by simpa using h⟩

theorem binaryOrder_eq {n d : Nat} {p : Int} (hn : n ≠ 0) (hd : d ≠ 0)
    (hlow : (2 : ℚ) ^ p ≤ n / d) (hhigh : (n / d : ℚ) < 2 ^ (p + 1)) : binaryOrder n d = p := by
  obtain ⟨hle, hlt⟩ := binaryOrder_spec hn hd
  have h1 : binaryOrder n d < p + 1 :=
    (zpow_lt_zpow_iff_right₀ one_lt_two).mp (hle.trans_lt hhigh)
  have h2 : p < binaryOrder n d + 1 :=
    (zpow_lt_zpow_iff_right₀ one_lt_two).mp (hlow.trans_lt hlt)
  omega

/-! ## Quotients -/

namespace Double

/-- The significand that a quotient is rounded to at an exponent. -/
def significandAt (n d : Nat) (e : Int) : Nat :=
  divNearest (n * Nat.pow 2 (-e).toNat) (d * Nat.pow 2 e.toNat)

/-- The scaled quotient that is rounded to a significand. -/
theorem scaled_eq {n d : Nat} (hd : d ≠ 0) (e : Int) :
    ((n * Nat.pow 2 (-e).toNat : ℕ) : ℚ) = n / d / 2 ^ e * (d * Nat.pow 2 e.toNat : ℕ) := by
  have hd0 : (d : ℚ) ≠ 0 := by exact_mod_cast hd
  push_cast [Nat.pow_eq]
  rw [pow_toNat two_ne_zero e]
  field_simp

theorem significandAt_eq {n d m : Nat} {e : Int} (hd : d ≠ 0)
    (hlow : (2 * (m : ℚ) - 1) * 2 ^ e ≤ 2 * (n / d))
    (hhigh : 2 * (n / d : ℚ) ≤ (2 * m + 1) * 2 ^ e)
    (hodd : m % 2 = 1 →
      (2 * (m : ℚ) - 1) * 2 ^ e < 2 * (n / d) ∧ 2 * (n / d : ℚ) < (2 * m + 1) * 2 ^ e) :
    significandAt n d e = m := by
  have he : (0 : ℚ) < 2 ^ e := by positivity
  refine divNearest_eq_of_value (Nat.mul_pos (by omega) (Nat.pow_pos (by omega)))
    (scaled_eq hd e) ?_ ?_ fun h => ?_
  · rwa [← mul_div_assoc, le_div_iff₀ he]
  · rwa [← mul_div_assoc, div_le_iff₀ he]
  · rw [← mul_div_assoc, lt_div_iff₀ he, div_lt_iff₀ he]
    exact hodd h

/-- The significand of a quotient has fifty-three bits, or was rounded up to
the least number that has one more. It has fewer only at the least exponent. -/
theorem significandAt_cases {n d : Nat} {e : Int} (hn : n ≠ 0) (hd : d ≠ 0)
    (he : max (-1074) (binaryOrder n d - 52) = e) :
    significandAt n d e ≤ 2 ^ 53 ∧ (2 ^ 52 ≤ significandAt n d e ∨ e = -1074) := by
  obtain ⟨hple, hplt⟩ := binaryOrder_spec hn hd
  have hunit : (0 : ℚ) < 2 ^ e := by positivity
  have hd0 : 0 < d * Nat.pow 2 e.toNat :=
    Nat.mul_pos (Nat.pos_of_ne_zero hd) (Nat.pow_pos (by omega))
  have hd0' : (0 : ℚ) < (d * Nat.pow 2 e.toNat : ℕ) := by exact_mod_cast hd0
  constructor
  · refine divNearest_le hd0 ?_
    rw [← Nat.cast_le (α := ℚ), Nat.cast_mul (2 ^ 53), scaled_eq hd e,
      mul_le_mul_iff_of_pos_right hd0', div_le_iff₀ hunit]
    calc (n / d : ℚ) ≤ 2 ^ (binaryOrder n d + 1) := hplt.le
      _ ≤ 2 ^ (53 + e) := zpow_le_zpow_right₀ one_le_two (by omega)
      _ = ((2 ^ 53 : ℕ) : ℚ) * 2 ^ e := by
        rw [zpow_add₀ two_ne_zero]
        norm_num
  · by_cases hleast : e = -1074
    · exact .inr hleast
    · refine .inl (le_divNearest hd0 ?_)
      rw [← Nat.cast_le (α := ℚ), Nat.cast_mul (2 ^ 52), scaled_eq hd e,
        mul_le_mul_iff_of_pos_right hd0', le_div_iff₀ hunit]
      calc ((2 ^ 52 : ℕ) : ℚ) * 2 ^ e = 2 ^ (52 + e) := by
            rw [zpow_add₀ two_ne_zero]
            norm_num
        _ ≤ 2 ^ binaryOrder n d := zpow_le_zpow_right₀ one_le_two (by omega)
        _ ≤ n / d := hple

theorem ofRatio_eq_ofRounded {n d : Nat} {p : Int} (negative : Bool) (hn : n ≠ 0)
    (hp : binaryOrder n d = p) :
    ofRatio negative n d =
      ofRounded negative (significandAt n d (max (-1074) (p - 52))) (max (-1074) (p - 52)) := by
  subst hp
  exact if_neg hn

theorem cast_lowQuarters {m : Nat} (hm : m ≠ 0) (e : Int) :
    (Decimal.lowQuarters m e : ℚ) =
      if m = Nat.pow 2 52 ∧ -1074 < e then 4 * (m : ℚ) - 1 else 4 * (m : ℚ) - 2 := by
  rw [Decimal.lowQuarters]
  split
  · rw [Nat.cast_sub (by omega)]
    push_cast
    ring
  · rw [Nat.cast_sub (by omega)]
    push_cast
    ring

/-- What rounds to a double lies within half a unit of it, and nearer if the
significand is odd. -/
theorem bounds_of_roundsTo {m : Nat} {e : Int} {x : ℚ} (hm : m ≠ 0) (h : RoundsTo m e x) :
    ((2 * (m : ℚ) - 1) * 2 ^ e ≤ 2 * x ∧ 2 * x ≤ (2 * m + 1) * 2 ^ e) ∧
      (m % 2 = 1 → (2 * (m : ℚ) - 1) * 2 ^ e < 2 * x ∧ 2 * x < (2 * m + 1) * 2 ^ e) := by
  have he : (0 : ℚ) < 2 ^ e := by positivity
  have hlow : 4 * (m : ℚ) - 2 ≤ Decimal.lowQuarters m e := by
    rw [cast_lowQuarters hm]
    split <;> linarith
  have hlow' := mul_le_mul_of_nonneg_right hlow he.le
  have hhigh : (Decimal.highQuarters m : ℚ) = 4 * m + 2 := by
    rw [Decimal.highQuarters]
    push_cast
    ring
  rw [RoundsTo, hhigh] at h
  split at h
  · exact ⟨⟨by linarith, by linarith⟩, by omega⟩
  · exact ⟨⟨by linarith, by linarith⟩, fun _ => ⟨by linarith, by linarith⟩⟩

theorem ofRounded_of_canonical {m : Nat} {e : Int} (negative : Bool) (hc : Canonical m e) :
    ofRounded negative m e = finite negative m e hc :=
  dif_pos hc

/-- A significand that was carried to fifty-four bits. -/
theorem ofRounded_carried {e : Int} (negative : Bool) (hc : Canonical (Nat.pow 2 52) e) :
    ofRounded negative (Nat.pow 2 53) (e - 1) = finite negative (Nat.pow 2 52) e hc := by
  have hlong : ¬Canonical (Nat.pow 2 53) (e - 1) := fun h => absurd h.1 (Nat.lt_irrefl _)
  have hhalf : Nat.pow 2 53 / 2 = Nat.pow 2 52 := by decide
  have hexponent : e - 1 + 1 = e := by omega
  have hc' : Canonical (Nat.pow 2 53 / 2) (e - 1 + 1) := by rwa [hhalf, hexponent]
  rw [ofRounded, dif_neg hlong, dif_pos hc']
  simp only [hhalf, hexponent]

/-- The quotient is not below the least double with the exponent, so it is
rounded at that exponent. -/
theorem ofRatio_eq_of_order {n d m : Nat} {e : Int} (negative : Bool) (hc : Canonical m e)
    (hm : m ≠ 0) (hn : n ≠ 0) (hd : d ≠ 0) (h : RoundsTo m e (n / d))
    (horder : max (-1074) (binaryOrder n d - 52) = e) :
    ofRatio negative n d = finite negative m e hc := by
  obtain ⟨⟨hlow, hhigh⟩, hodd⟩ := bounds_of_roundsTo hm h
  rw [ofRatio_eq_ofRounded negative hn rfl, horder, significandAt_eq hd hlow hhigh hodd,
    ofRounded_of_canonical]

/-- The quotient is below a power of two and rounds up to it. It is rounded
at the exponent below, where doubles lie twice as close. -/
theorem ofRatio_eq_of_below {n d : Nat} {e : Int} (negative : Bool)
    (hc : Canonical (Nat.pow 2 52) e) (he : -1074 < e) (hn : n ≠ 0) (hd : d ≠ 0)
    (h : RoundsTo (Nat.pow 2 52) e (n / d)) (hbelow : (n / d : ℚ) < 2 ^ (52 + e)) :
    ofRatio negative n d = finite negative (Nat.pow 2 52) e hc := by
  have hunit : (0 : ℚ) < 2 ^ (e - 1) := by positivity
  have hsplit : ∀ k : Nat, (2 : ℚ) ^ ((k : Int) + (e - 1)) = 2 ^ k * 2 ^ (e - 1) := fun k => by
    rw [zpow_add₀ two_ne_zero, zpow_natCast]
  have hdouble : (2 : ℚ) ^ e = 2 * 2 ^ (e - 1) := by
    rw [← zpow_one_add₀ two_ne_zero]
    congr 1
    omega
  have hbound : (n / d : ℚ) < 2 ^ 53 * 2 ^ (e - 1) := by
    rw [← hsplit 53]
    convert hbelow using 2
    push_cast
    ring
  have hnear : (2 * 2 ^ 53 - 1) * 2 ^ (e - 1) ≤ 2 * (n / d : ℚ) := by
    rw [RoundsTo, if_pos (by decide)] at h
    have hlow := h.1
    rw [cast_lowQuarters (by decide), if_pos ⟨rfl, he⟩, hdouble] at hlow
    push_cast [Nat.pow_eq] at hlow
    linarith
  have horder : binaryOrder n d = e + 51 := by
    refine binaryOrder_eq hn hd ?_ ?_
    · have hpow := hsplit 52
      rw [show ((52 : Nat) : Int) + (e - 1) = e + 51 by omega] at hpow
      rw [hpow]
      linarith
    · have hpow := hsplit 53
      rw [show ((53 : Nat) : Int) + (e - 1) = e + 51 + 1 by omega] at hpow
      rwa [hpow]
  have hexponent : max (-1074) (e + 51 - 52) = e - 1 := by omega
  have hsignificand : significandAt n d (e - 1) = Nat.pow 2 53 := by
    refine significandAt_eq hd ?_ ?_ fun hodd => absurd hodd (by decide)
    · push_cast [Nat.pow_eq]
      exact hnear
    · push_cast [Nat.pow_eq]
      linarith
  rw [ofRatio_eq_ofRounded negative hn horder, hexponent, hsignificand, ofRounded_carried]

/-- A quotient that rounds to a double gives the double. -/
theorem ofRatio_eq {n d m : Nat} {e : Int} (negative : Bool) (hc : Canonical m e) (hm : m ≠ 0)
    (hd : d ≠ 0) (h : RoundsTo m e (n / d)) :
    ofRatio negative n d = finite negative m e hc := by
  obtain ⟨⟨hlow, hhigh⟩, -⟩ := bounds_of_roundsTo hm h
  obtain ⟨hlong, hleast, -, hfull⟩ := id hc
  have hunit : (0 : ℚ) < 2 ^ e := by positivity
  have hm1 : (1 : ℚ) ≤ m := by exact_mod_cast Nat.pos_of_ne_zero hm
  have hn : n ≠ 0 := by
    rintro rfl
    have hpos : (0 : ℚ) < (2 * (m : ℚ) - 1) * 2 ^ e := by
      have : (0 : ℚ) < 2 * m - 1 := by linarith
      positivity
    simp at hlow
    linarith
  obtain ⟨hple, hplt⟩ := binaryOrder_spec hn hd
  have hfits : binaryOrder n d < 53 + e := by
    have hlong' : (m : ℚ) + 1 ≤ 2 ^ 53 := by exact_mod_cast hlong
    have hlt : (n / d : ℚ) < 2 ^ (53 + e) := by
      rw [zpow_add₀ two_ne_zero]
      have := mul_le_mul_of_nonneg_right hlong' hunit.le
      norm_num at this ⊢
      linarith
    exact (zpow_lt_zpow_iff_right₀ one_lt_two).mp (hple.trans_lt hlt)
  by_cases horder : max (-1074) (binaryOrder n d - 52) = e
  · exact ofRatio_eq_of_order negative hc hm hn hd h horder
  · have hbelow : (n / d : ℚ) < 2 ^ (52 + e) :=
      hplt.trans_le ((zpow_le_zpow_iff_right₀ one_lt_two).mpr (by omega))
    have hm52 : m = Nat.pow 2 52 := by
      have hle : Nat.pow 2 52 ≤ m := hfull.resolve_right (by omega)
      refine le_antisymm ?_ hle
      rw [zpow_add₀ two_ne_zero] at hbelow
      have hlt : 2 * (m : ℚ) - 1 < 2 * 2 ^ 52 := by
        refine lt_of_mul_lt_mul_right ?_ hunit.le
        norm_num at hbelow ⊢
        linarith
      have hlt' : 2 * (m : ℚ) < 2 * 2 ^ 52 + 1 := by linarith
      have hlt'' : 2 * m < 2 * 2 ^ 52 + 1 := by exact_mod_cast hlt'
      have hpow : Nat.pow 2 52 = 2 ^ 52 := rfl
      omega
    subst hm52
    exact ofRatio_eq_of_below negative hc (by omega) hn hd h hbelow

/-! ## Finite quotients -/

/-- A significand of fifty-three bits that was rounded, at an exponent below
the greatest, makes a finite double. -/
theorem isFinite_ofRounded {m : Nat} {e : Int} (negative : Bool) (hm : m ≤ 2 ^ 53)
    (hleast : -1074 ≤ e) (hgreatest : e < 971) (hfull : 2 ^ 52 ≤ m ∨ e = -1074) :
    (ofRounded negative m e).isFinite := by
  have hpow : Nat.pow 2 53 = 2 ^ 53 ∧ Nat.pow 2 52 = 2 ^ 52 := ⟨rfl, rfl⟩
  unfold ofRounded
  split_ifs with hc hhalf
  · rfl
  · rfl
  · unfold Canonical at hc hhalf
    omega

/-- A quotient that is not beyond all doubles is rounded to a finite one. -/
theorem isFinite_ofRatio {n d : Nat} (negative : Bool) (hd : d ≠ 0)
    (h : (n / d : ℚ) < 2 ^ (1023 : Int)) : (ofRatio negative n d).isFinite := by
  by_cases hn : n = 0
  · rw [ofRatio, if_pos hn]
    rfl
  · obtain ⟨hple, -⟩ := binaryOrder_spec hn hd
    have hp : binaryOrder n d < 1023 := (zpow_lt_zpow_iff_right₀ one_lt_two).mp (hple.trans_lt h)
    obtain ⟨hlong, hfull⟩ := significandAt_cases hn hd rfl
    rw [ofRatio_eq_ofRounded negative hn rfl]
    exact isFinite_ofRounded negative hlong (by omega) (by omega) hfull

/-- An integer of sixty-four bits is a finite double. -/
theorem isFinite_ofInt {n : Int} (h : n.natAbs < 2 ^ 64) : (ofInt n).isFinite := by
  refine isFinite_ofRatio _ one_ne_zero ?_
  have hlt : (n.natAbs : ℚ) < 2 ^ 64 := by exact_mod_cast h
  calc ((n.natAbs : ℕ) : ℚ) / (1 : ℕ) = n.natAbs := by simp
    _ < 2 ^ (64 : Int) := hlt
    _ ≤ 2 ^ (1023 : Int) := zpow_le_zpow_right₀ one_le_two (by omega)

end Double

end PagePreview
