/-
PagePreview.Proofs.Number.Sum — sums of integers are exact up to 2⁵³.

A sum of two doubles is computed as an integer multiple of the smaller of
their units and then rounded. An integer up to 2⁵³ rounds to itself, so it
does not matter how large the summands are and which units they have, as long
as one of them is a counter and the sum is not too large. A counter that gets
to zero is zero without a sign.

* `Double.value?_ofInt` — the integers that are doubles.
* `Double.add_eq_ofInt` — a sum that is an integer up to 2⁵³.
* `Double.pageText_ofInt`, `Double.ofPageText_toString` — their texts, and
  how they are read.
-/
import PagePreview.Proofs.Number.Whole

namespace PagePreview

namespace Double

/-! ## Integers as doubles -/

/-- A magnitude with the sign of an integer. -/
theorem signed_mul (n : Int) (m : Nat) (u : ℚ) (h : (m : ℚ) * u = n.natAbs) :
    (signed (decide (n < 0)) m : ℚ) * u = n := by
  have hn : ((n.natAbs : ℕ) : ℚ) = |(n : ℚ)| := by rw [Nat.cast_natAbs, Int.cast_abs]
  rw [hn] at h
  rcases lt_or_ge n 0 with hlt | hge
  · have hlt' : (n : ℚ) < 0 := by exact_mod_cast hlt
    rw [abs_of_neg hlt'] at h
    simp [signed, hlt, h]
  · have hge' : (0 : ℚ) ≤ n := by exact_mod_cast hge
    rw [abs_of_nonneg hge'] at h
    simp [signed, not_lt.mpr hge, h]

/-- An integer up to 2⁵³ is a double. -/
theorem exists_ofInt_eq {n : Int} (h : n.natAbs ≤ 2 ^ 53) :
    ∃ (m : Nat) (e : Int) (hc : Canonical m e), ofInt n = finite (decide (n < 0)) m e hc ∧
      (m : ℚ) * 2 ^ e = n.natAbs := by
  by_cases hn : n = 0
  · subst hn
    exact ⟨0, -1074, by decide, rfl, by simp⟩
  · obtain ⟨m, e, hc, hm, hvalue, hself⟩ := exists_roundsTo_of_le (Int.natAbs_ne_zero.mpr hn) h
    exact ⟨m, e, hc, (ofInt_eq_finite_iff hm).mpr ⟨rfl, hself⟩, hvalue⟩

theorem isFinite_of_value? {x : Double} {v : ℚ} (h : x.value? = some v) : x.isFinite := by
  cases x with
  | nan => exact nomatch h
  | infinite _ => exact nomatch h
  | finite => rfl

theorem value?_ofInt {n : Int} (h : n.natAbs ≤ 2 ^ 53) : (ofInt n).value? = some (n : ℚ) := by
  obtain ⟨m, e, hc, heq, hvalue⟩ := exists_ofInt_eq h
  rw [heq, value?, signed_mul n m _ hvalue]

/-! ## Exact sums -/

/-- A quotient that is an integer up to 2⁵³ is rounded to that integer. -/
theorem ofScaled_eq_ofInt {a b : Int} {e : Int} (hb : b ≠ 0) (hle : b.natAbs ≤ 2 ^ 53)
    (h : (a : ℚ) * 2 ^ e = b) : ofScaled a e = ofInt b := by
  have hunit : (0 : ℚ) < 2 ^ e := by positivity
  have hsign : decide (a < 0) = decide (b < 0) := by
    have hneg := mul_lt_mul_iff_of_pos_right (b := (a : ℚ)) (c := 0) hunit
    rw [h, zero_mul] at hneg
    rw [decide_eq_decide]
    exact_mod_cast hneg.symm
  have habs : (a.natAbs : ℚ) * 2 ^ e = b.natAbs := by
    rw [Nat.cast_natAbs, Nat.cast_natAbs, Int.cast_abs, Int.cast_abs, ← h, abs_mul,
      abs_of_pos hunit]
  obtain ⟨m, e', hc, hm, -, hself⟩ := exists_roundsTo_of_le (Int.natAbs_ne_zero.mpr hb) hle
  rw [(ofInt_eq_finite_iff hm).mpr ⟨rfl, hself⟩, ofScaled, hsign]
  refine ofRatio_eq _ hc hm (Nat.pow_pos (by omega)).ne' ?_
  have hratio := mul_pow_div_pow two_ne_zero a.natAbs e
  rw [Nat.cast_two, habs] at hratio
  exact hratio.symm ▸ hself

/-- The sum of two doubles, with a power of two taken out. -/
theorem sum_mul (a b : Int) (e f : Int) :
    ((a * Nat.pow 2 (e - min e f).toNat + b * Nat.pow 2 (f - min e f).toNat : Int) : ℚ) *
      2 ^ min e f = a * 2 ^ e + b * 2 ^ f := by
  have hshift : ∀ g, min e f ≤ g →
      ((Nat.pow 2 (g - min e f).toNat : ℕ) : ℚ) * 2 ^ min e f = 2 ^ g := by
    intro g hg
    push_cast [Nat.pow_eq]
    rw [← zpow_natCast, ← zpow_add₀ two_ne_zero, Int.toNat_of_nonneg (by omega)]
    congr 1
    ring
  rw [← hshift e (min_le_left e f), ← hshift f (min_le_right e f)]
  push_cast
  ring

/-- A sum is exact if it is an integer up to 2⁵³. -/
theorem add_eq_ofInt {n d : Int} {x : Double} (hn : n.natAbs ≤ 2 ^ 53)
    (hx : x.value? = some (d : ℚ)) (hsum : (n + d).natAbs ≤ 2 ^ 53) :
    (ofInt n).add x = ofInt (n + d) := by
  obtain ⟨m, e, hc, heq, hvalue⟩ := exists_ofInt_eq hn
  have hfirst := signed_mul n m _ hvalue
  cases x with
  | nan => exact nomatch hx
  | infinite _ => exact nomatch hx
  | finite t k f hk =>
    have hsecond : (signed t k : ℚ) * 2 ^ f = d := Option.some.inj hx
    have htotal := sum_mul (signed (decide (n < 0)) m) (signed t k) e f
    rw [hfirst, hsecond] at htotal
    rw [heq, add]
    generalize signed (decide (n < 0)) m * _ + signed t k * _ = total at *
    have hpower : (2 : ℚ) ^ min e f ≠ 0 := by positivity
    have hnonzero : total = 0 ↔ n + d = 0 := by
      rw [← Int.cast_eq_zero (α := ℚ), ← Int.cast_eq_zero (α := ℚ) (n := n + d), Int.cast_add,
        ← htotal, mul_eq_zero_iff_right hpower]
    split_ifs with hzero
    · -- Only a sum of two negative zeros is a negative zero.
      have hcancel := hnonzero.mp hzero
      have hsign : (decide (n < 0) && t) = false := by
        cases t with
        | false => exact Bool.and_false _
        | true =>
          have hle : (d : ℚ) ≤ 0 := by
            rw [← hsecond, signed, if_pos rfl]
            have hk : (0 : ℚ) ≤ (k : ℚ) * 2 ^ f := by positivity
            push_cast
            linarith
          have hd : d ≤ 0 := by exact_mod_cast hle
          rw [Bool.and_true, decide_eq_false_iff_not]
          omega
      rw [hcancel, hsign]
      rfl
    · exact ofScaled_eq_ofInt (mt hnonzero.mpr hzero) hsum (htotal.trans (Int.cast_add n d).symm)

/-! ## Texts of integers -/

theorem pageText_ofInt {n : Int} (h : n.natAbs ≤ 2 ^ 53) : (ofInt n).pageText = toString n := by
  obtain ⟨s, -, htext, hsmall⟩ := exists_isShown_ofInt (n := n) (by omega)
  rw [htext, hsmall h]

theorem ofPageText_toString {n : Int} (h : n.natAbs ≤ 2 ^ 53) :
    ofPageText (toString n) = ofInt n := by
  rw [← pageText_ofInt h, ofPageText_pageText, if_neg]
  intro hzero
  by_cases hn : n = 0
  · subst hn
    exact absurd hzero (by decide)
  · obtain ⟨m, e, hc, hm, heq⟩ := exists_ofInt hn (by omega)
    rw [heq, zero, finite.injEq] at hzero
    exact hm hzero.2.1

end Double

end PagePreview
