/-
PagePreview.Proofs.Number.Decimal — the shortest decimal of a double rounds
to the double.

A grid is only asked for a point of the interval, and the double itself, to
which the search falls back, lies in the interval. So what is found does
not depend on which grids are tried and in which order. A decimal that is
found is far from the bounds beyond which a decimal is settled by its order
of magnitude alone, so reading it comes down to rounding a quotient.

* `Decimal.value`, `Decimal.Proper` — what a decimal stands for, and that
  its digits are digits.
* `Decimal.shortest_spec` — the shortest decimal is proper and rounds to
  the double.
* `Double.ofDecimal_eq` — a decimal that rounds to a double is read as the
  double.
-/
import PagePreview.Proofs.Number.Rounding

namespace PagePreview

/-! ## Digits -/

theorem ofDigits_append (xs ys : List Nat) :
    ofDigits (xs ++ ys) = ofDigits xs * 10 ^ ys.length + ofDigits ys := by
  induction ys using List.reverseRecOn with
  | nil => simp [ofDigits]
  | append_singleton ys y ih =>
    rw [← List.append_assoc, ofDigits_append_singleton, ofDigits_append_singleton, ih,
      List.length_append, List.length_singleton, Nat.pow_succ]
    ring

theorem ofDigits_replicate_zero (n : Nat) : ofDigits (List.replicate n 0) = 0 := by
  induction n with
  | zero => rfl
  | succ n ih => rw [List.replicate_succ', ofDigits_append_singleton, ih]

theorem digitsOf_ne_nil (n : Nat) : digitsOf n ≠ [] := by
  rw [digitsOf]
  split <;> simp

theorem lt_ten_of_mem_digitsOf {n d : Nat} (h : d ∈ digitsOf n) : d < 10 := by
  fun_induction digitsOf n with
  | case1 n hn => exact List.mem_singleton.mp h ▸ hn
  | case2 n hn ih =>
    rcases List.mem_append.mp h with h | h
    · exact ih h
    · have hd := List.mem_singleton.mp h
      omega

/-- The digits of a positive number do not begin with a zero. -/
theorem head?_digitsOf_ne {n : Nat} (hn : n ≠ 0) : (digitsOf n).head? ≠ some 0 := by
  fun_induction digitsOf n with
  | case1 n _ => simpa using hn
  | case2 n h ih =>
    rw [List.head?_append_of_ne_nil _ (digitsOf_ne_nil _)]
    exact ih (by omega)

theorem lt_pow_length_digitsOf (n : Nat) : n < 10 ^ (digitsOf n).length := by
  fun_induction digitsOf n with
  | case1 n h => simpa using h
  | case2 n h ih =>
    rw [List.length_append, List.length_singleton, Nat.pow_succ]
    omega

theorem pow_length_digitsOf_le {n : Nat} (hn : n ≠ 0) : 10 ^ (digitsOf n).length ≤ 10 * n := by
  fun_induction digitsOf n with
  | case1 n h =>
    rw [List.length_singleton]
    omega
  | case2 n h ih =>
    have hrest := ih (by omega)
    rw [List.length_append, List.length_singleton, Nat.pow_succ]
    omega

namespace Decimal

/-! ## Decimals -/

/-- The number that a decimal stands for. -/
def value (d : Decimal) : ℚ :=
  ofDigits d.digits * 10 ^ (d.point - d.digits.length)

/-- The decimal of zero, the only one that begins with the digit. -/
def zero : Decimal := ⟨[0], 1⟩

/-- A decimal with digits, in its one form. -/
structure Proper (d : Decimal) : Prop where
  ne_nil : d.digits ≠ []
  digit : ∀ x ∈ d.digits, x < 10
  head : d.digits.head? = some 0 → d = zero

theorem value_zero : zero.value = 0 := by
  simp [value, zero, ofDigits]

theorem proper_zero : zero.Proper :=
  ⟨by decide, by decide, fun _ => rfl⟩

/-- Zeros at the end are given up. -/
theorem digits_ofScaled (n : Nat) (k : Int) :
    ∃ zeros : Nat, digitsOf n = (ofScaled n k).digits ++ List.replicate zeros 0 := by
  have hsplit : (digitsOf n).reverse.takeWhile (· == 0) ++
      (digitsOf n).reverse.dropWhile (· == 0) = (digitsOf n).reverse :=
    List.takeWhile_append_dropWhile
  have hzeros : (digitsOf n).reverse.takeWhile (· == 0) =
      List.replicate ((digitsOf n).reverse.takeWhile (· == 0)).length 0 :=
    List.eq_replicate_iff.mpr ⟨rfl, fun b hb => by simpa using List.mem_takeWhile_imp hb⟩
  refine ⟨((digitsOf n).reverse.takeWhile (· == 0)).length, ?_⟩
  have hback := congrArg List.reverse hsplit
  rw [List.reverse_append, List.reverse_reverse, hzeros, List.reverse_replicate] at hback
  exact hback.symm

theorem value_ofScaled (n : Nat) (k : Int) : (ofScaled n k).value = n * 10 ^ k := by
  obtain ⟨zeros, hdigits⟩ := digits_ofScaled n k
  have hn : n = ofDigits (ofScaled n k).digits * 10 ^ zeros := by
    have hvalue := congrArg ofDigits hdigits
    rw [ofDigits_digitsOf, ofDigits_append, ofDigits_replicate_zero,
      List.length_replicate] at hvalue
    exact hvalue
  have hpoint : (ofScaled n k).point - (ofScaled n k).digits.length = (zeros : Int) + k := by
    have hlength := congrArg List.length hdigits
    rw [List.length_append, List.length_replicate] at hlength
    have hdef : (ofScaled n k).point = (digitsOf n).length + k := rfl
    omega
  rw [value, hpoint, zpow_add₀ (by norm_num), zpow_natCast, ← mul_assoc]
  conv_rhs => rw [hn]
  push_cast
  ring

theorem proper_ofScaled {n : Nat} (hn : n ≠ 0) (k : Int) : (ofScaled n k).Proper := by
  obtain ⟨zeros, hdigits⟩ := digits_ofScaled n k
  have hne : (ofScaled n k).digits ≠ [] := fun hnil => by
    have hvalue := congrArg ofDigits hdigits
    rw [hnil, List.nil_append, ofDigits_digitsOf, ofDigits_replicate_zero] at hvalue
    exact hn hvalue
  have hhead := head?_digitsOf_ne hn
  rw [hdigits, List.head?_append_of_ne_nil _ hne] at hhead
  refine ⟨hne, fun x hx => lt_ten_of_mem_digitsOf (n := n) ?_, fun h => absurd h hhead⟩
  rw [hdigits]
  exact List.mem_append_left _ hx

/-! ## The point of a grid -/

/-- The test of a grid point, whose lengths are all scaled to be natural
numbers, says whether the point rounds to the double. -/
theorem inInterval_scaled (m n : Nat) (e k : Int) :
    inInterval m (lowQuarters m e * (Nat.pow 2 (e - 2).toNat * Nat.pow 10 (-k).toNat))
        (highQuarters m * (Nat.pow 2 (e - 2).toNat * Nat.pow 10 (-k).toNat))
        (n * (Nat.pow 2 (2 - e).toNat * Nat.pow 10 k.toNat)) = true ↔
      RoundsTo m e (n * 10 ^ k) := by
  have hscale : (0 : ℚ) < 2 ^ (2 - e).toNat * 10 ^ (-k).toNat := by positivity
  have hquarters : ∀ a : Nat,
      4 * ((a * (Nat.pow 2 (e - 2).toNat * Nat.pow 10 (-k).toNat) : ℕ) : ℚ) =
        a * 2 ^ e * (2 ^ (2 - e).toNat * 10 ^ (-k).toNat) := fun a => by
    have hpow := pow_toNat (b := 2) two_ne_zero (e - 2)
    rw [neg_sub, zpow_sub₀ two_ne_zero] at hpow
    push_cast [Nat.pow_eq]
    rw [hpow]
    norm_num
    ring
  have hpoint : 4 * ((n * (Nat.pow 2 (2 - e).toNat * Nat.pow 10 k.toNat) : ℕ) : ℚ) =
      4 * (n * 10 ^ k) * (2 ^ (2 - e).toNat * 10 ^ (-k).toNat) := by
    push_cast [Nat.pow_eq]
    rw [pow_toNat (by norm_num) k]
    ring
  have hcompare : ∀ {x y : Nat} {u v : ℚ},
      4 * (x : ℚ) = u * (2 ^ (2 - e).toNat * 10 ^ (-k).toNat) →
      4 * (y : ℚ) = v * (2 ^ (2 - e).toNat * 10 ^ (-k).toNat) →
      (x ≤ y ↔ u ≤ v) ∧ (x < y ↔ u < v) := fun hx hy => by
    rw [← mul_le_mul_iff_of_pos_right hscale, ← mul_lt_mul_iff_of_pos_right hscale, ← hx, ← hy]
    simp
  unfold inInterval RoundsTo
  have hlow := hcompare (hquarters (lowQuarters m e)) hpoint
  have hhigh := hcompare hpoint (hquarters (highQuarters m))
  split_ifs
  · rw [Bool.and_eq_true, decide_eq_true_iff, decide_eq_true_iff, hlow.1, hhigh.1]
  · rw [Bool.and_eq_true, decide_eq_true_iff, decide_eq_true_iff, hlow.2, hhigh.2]

/-- What a grid is asked for is a point that rounds to the double. -/
theorem roundsTo_of_gridPoint? {tie : TieRule} {m n : Nat} {e k : Int}
    (h : gridPoint? tie m e k = some n) : RoundsTo m e (n * 10 ^ k) := by
  rw [← inInterval_scaled]
  unfold gridPoint? at h
  simp only at h
  split at h <;> grind

/-- A double rounds to itself. -/
theorem roundsTo_self {m : Nat} (hm : m ≠ 0) (e : Int) : RoundsTo m e (m * 2 ^ e) := by
  have hunit : (0 : ℚ) < 2 ^ e := by positivity
  have hlow : (lowQuarters m e : ℚ) < 4 * m := by
    rw [Double.cast_lowQuarters hm]
    split <;> linarith
  have hhigh : 4 * (m : ℚ) < highQuarters m := by
    rw [highQuarters]
    push_cast
    linarith
  have hlow' := mul_lt_mul_of_pos_right hlow hunit
  have hhigh' := mul_lt_mul_of_pos_right hhigh hunit
  unfold RoundsTo
  split
  · exact ⟨by linarith, by linarith⟩
  · exact ⟨by linarith, by linarith⟩

theorem pos_of_roundsTo {m : Nat} {e : Int} {x : ℚ} (hm : m ≠ 0) (h : RoundsTo m e x) :
    0 < x := by
  obtain ⟨⟨hlow, -⟩, -⟩ := Double.bounds_of_roundsTo hm h
  have hm1 : (1 : ℚ) ≤ m := by exact_mod_cast Nat.pos_of_ne_zero hm
  have hpos : (0 : ℚ) < (2 * (m : ℚ) - 1) * 2 ^ e := by
    have hfactor : (0 : ℚ) < 2 * m - 1 := by linarith
    positivity
  linarith

theorem ne_zero_of_roundsTo {m n : Nat} {e k : Int} (hm : m ≠ 0)
    (h : RoundsTo m e (n * 10 ^ k)) : n ≠ 0 := by
  rintro rfl
  simpa using pos_of_roundsTo hm h

/-- The decimal with all digits of a double. -/
theorem exact_eq (m : Nat) (e : Int) :
    ∃ (n : Nat) (k : Int), exact m e = ofScaled n k ∧ (n * 10 ^ k : ℚ) = m * 2 ^ e := by
  refine ⟨_, _, rfl, ?_⟩
  push_cast [Nat.pow_eq]
  rcases Int.le_total 0 e with he | he
  · have hneg : (-e).toNat = 0 := by omega
    have hpos : (e.toNat : Int) = e := Int.toNat_of_nonneg he
    rw [min_eq_right he, hneg, ← zpow_natCast (2 : ℚ) e.toNat, hpos]
    simp
  · have hpos : e.toNat = 0 := by omega
    have hneg : ((-e).toNat : Int) = -e := Int.toNat_of_nonneg (by omega)
    have hten : (10 : ℚ) ^ e = 5 ^ e * 2 ^ e := by
      rw [← mul_zpow]
      norm_num
    rw [min_eq_left he, hpos, ← zpow_natCast (5 : ℚ) (-e).toNat, hneg, hten, zpow_neg]
    field_simp

/-- The shortest decimal is the point of a grid or the double itself. -/
theorem shortest_eq (tie : TieRule) {m : Nat} (hm : m ≠ 0) (e : Int) :
    ∃ (n : Nat) (k : Int), shortest tie m e = ofScaled n k ∧ RoundsTo m e (n * 10 ^ k) := by
  unfold shortest
  simp only
  generalize (List.range 17).map _ = grids
  cases hfound : grids.findSome? fun k => (gridPoint? tie m e k).map (ofScaled · k) with
  | none =>
    obtain ⟨n, k, heq, hvalue⟩ := exact_eq m e
    exact ⟨n, k, heq, hvalue ▸ roundsTo_self hm e⟩
  | some d =>
    obtain ⟨k, -, hk⟩ := List.exists_of_findSome?_eq_some hfound
    obtain ⟨n, hn, rfl⟩ := Option.map_eq_some_iff.mp hk
    exact ⟨n, k, rfl, roundsTo_of_gridPoint? hn⟩

/-- The shortest decimal of a double is proper and rounds to the double. -/
theorem shortest_spec (tie : TieRule) {m : Nat} (hm : m ≠ 0) (e : Int) :
    (shortest tie m e).Proper ∧ RoundsTo m e (shortest tie m e).value := by
  obtain ⟨n, k, heq, hround⟩ := shortest_eq tie hm e
  rw [heq, value_ofScaled]
  exact ⟨proper_ofScaled (ne_zero_of_roundsTo hm hround) k, hround⟩

end Decimal

/-! ## Reading a decimal -/

namespace Double

/-- What rounds to a double lies between half of the least one and the power
of two above the largest one. -/
theorem size_of_roundsTo {m : Nat} {e : Int} {x : ℚ} (hc : Canonical m e) (hm : m ≠ 0)
    (h : RoundsTo m e x) : (2 : ℚ) ^ (-1075 : Int) ≤ x ∧ x ≤ 2 ^ (1024 : Int) := by
  obtain ⟨⟨hlow, hhigh⟩, -⟩ := bounds_of_roundsTo hm h
  obtain ⟨hlong, hleast, hgreatest, -⟩ := hc
  have hunit : (0 : ℚ) < 2 ^ e := by positivity
  constructor
  · have hm1 : (1 : ℚ) ≤ m := by exact_mod_cast Nat.pos_of_ne_zero hm
    have hhalf : (2 : ℚ) ^ e = 2 * 2 ^ (e - 1) := by
      rw [← zpow_one_add₀ two_ne_zero, add_sub_cancel]
    have hlow' : 1 * (2 : ℚ) ^ e ≤ (2 * m - 1) * 2 ^ e := by
      gcongr
      linarith
    calc (2 : ℚ) ^ (-1075 : Int) ≤ 2 ^ (e - 1) := zpow_le_zpow_right₀ one_le_two (by omega)
      _ ≤ x := by linarith
  · have hlong' : (m : ℚ) + 1 ≤ 2 ^ 53 := by exact_mod_cast hlong
    have hhigh' : (2 * (m : ℚ) + 1) * 2 ^ e ≤ 2 * 2 ^ 53 * 2 ^ e := by
      gcongr
      linarith
    calc x ≤ 2 ^ 53 * 2 ^ e := by linarith
      _ = 2 ^ (53 + e) := by rw [zpow_add₀ two_ne_zero]; rfl
      _ ≤ 2 ^ (1024 : Int) := zpow_le_zpow_right₀ one_le_two (by omega)

theorem two_pow_lt_ten_pow : (2 : ℚ) ^ 1075 < 10 ^ 400 :=
  calc (2 : ℚ) ^ 1075 = (2 ^ 25) ^ 43 := by rw [← pow_mul]
    _ < (10 ^ 8) ^ 43 := by
      gcongr
      norm_num
    _ = 10 ^ 344 := by rw [← pow_mul]
    _ ≤ 10 ^ 400 := pow_le_pow_right₀ (by norm_num) (by omega)

/-- What rounds to a double has an order of magnitude far from the bounds. -/
theorem order_of_roundsTo {m s : Nat} {e k : Int} (hc : Canonical m e) (hm : m ≠ 0)
    (h : RoundsTo m e (s * 10 ^ k)) :
    -400 < (digitsOf s).length + k ∧ (digitsOf s).length + k < 401 := by
  obtain ⟨hleast, hgreatest⟩ := size_of_roundsTo hc hm h
  have hs := Decimal.ne_zero_of_roundsTo hm h
  have hpower : (0 : ℚ) < 10 ^ k := by positivity
  have hten : (1 : ℚ) < 10 := by norm_num
  constructor <;> rw [← zpow_lt_zpow_iff_right₀ hten]
  · calc (10 : ℚ) ^ (-400 : Int) < 2 ^ (-1075 : Int) := by
          rw [zpow_neg, zpow_neg, zpow_ofNat, zpow_ofNat]
          exact inv_strictAnti₀ (by positivity) two_pow_lt_ten_pow
      _ ≤ s * 10 ^ k := hleast
      _ < 10 ^ (digitsOf s).length * 10 ^ k :=
        mul_lt_mul_of_pos_right (by exact_mod_cast lt_pow_length_digitsOf s) hpower
      _ = 10 ^ ((digitsOf s).length + k) := by rw [zpow_add₀ (by norm_num), zpow_natCast]
  · calc (10 : ℚ) ^ ((digitsOf s).length + k) = 10 ^ (digitsOf s).length * 10 ^ k := by
          rw [zpow_add₀ (by norm_num), zpow_natCast]
      _ ≤ 10 * s * 10 ^ k :=
        mul_le_mul_of_nonneg_right (by exact_mod_cast pow_length_digitsOf_le hs) hpower.le
      _ = 10 * (s * 10 ^ k) := mul_assoc ..
      _ ≤ 10 * 2 ^ (1024 : Int) := by gcongr
      _ < 10 * 10 ^ (400 : Int) := by
        rw [zpow_ofNat, zpow_ofNat]
        gcongr
        exact (pow_le_pow_right₀ one_le_two (by omega)).trans_lt two_pow_lt_ten_pow
      _ = 10 ^ (401 : Int) := (zpow_one_add₀ (by norm_num) 400).symm

/-- A decimal that rounds to a double is read as the double. -/
theorem ofDecimal_eq {m s : Nat} {e k : Int} (negative : Bool) (hc : Canonical m e) (hm : m ≠ 0)
    (h : RoundsTo m e (s * 10 ^ k)) : ofDecimal negative s k = finite negative m e hc := by
  obtain ⟨hleast, hgreatest⟩ := order_of_roundsTo hc hm h
  have hs := Decimal.ne_zero_of_roundsTo hm h
  rw [ofDecimal, if_neg hs, if_neg (by omega), if_neg (by omega)]
  refine ofRatio_eq negative hc hm (Nat.pow_pos (by omega)).ne' ?_
  rwa [mul_pow_div_pow (by omega)]

end Double

end PagePreview
