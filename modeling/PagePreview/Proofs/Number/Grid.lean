/-
PagePreview.Proofs.Number.Grid — the point of a grid that stands for a double.

A grid is asked for the two neighbours of the double only. That is enough:
whatever rounds to the double and is farther away has one of them between
itself and the double, and it then rounds to the double, too. A grid whose
points are close enough has a point for every double, and seventeen digits
make it so.

* `Decimal.pointOf_spec` — where the point of a quotient stands.
* `Decimal.gridPoint?_cases` — which of the neighbours is taken.
* `Decimal.exists_gridPoint?`, `Decimal.gridPoint?_nearest` — a grid on which
  something rounds to the double has a point, and none is nearer.
* `Decimal.exists_gridPoint?_of_fine` — seventeen digits are enough.
-/
import PagePreview.Proofs.Number.Nearest

namespace PagePreview

/-! ## Digits -/

theorem digitsOf_mul_ten {n : Nat} (hn : n ≠ 0) : digitsOf (n * 10) = digitsOf n ++ [0] := by
  have hdiv : n * 10 / 10 = n := by omega
  have hmod : n * 10 % 10 = 0 := by omega
  rw [digitsOf, if_neg (by omega), hdiv, hmod]

theorem digitsOf_mul_pow {n : Nat} (hn : n ≠ 0) (z : Nat) :
    digitsOf (n * 10 ^ z) = digitsOf n ++ List.replicate z 0 := by
  induction z with
  | zero => simp
  | succ z ih =>
    have hne : n * 10 ^ z ≠ 0 := Nat.mul_ne_zero hn (by positivity)
    rw [Nat.pow_succ, ← Nat.mul_assoc, digitsOf_mul_ten hne, ih, List.append_assoc,
      ← List.replicate_succ']

theorem length_digitsOf_le {n j : Nat} (hj : j ≠ 0) (h : n < 10 ^ j) : (digitsOf n).length ≤ j := by
  by_cases hn : n = 0
  · rw [hn, digitsOf, if_pos (by omega), List.length_singleton]
    omega
  · have hle : 10 ^ (digitsOf n).length < 10 ^ (j + 1) := by
      have := pow_length_digitsOf_le hn
      rw [Nat.pow_succ]
      omega
    have := (Nat.pow_lt_pow_iff_right (by omega)).mp hle
    omega

theorem ofDigits_lt {ds : List Nat} (h : ∀ d ∈ ds, d < 10) : ofDigits ds < 10 ^ ds.length := by
  induction ds using List.reverseRecOn with
  | nil => decide
  | append_singleton ds d ih =>
    have hd := h d (by simp)
    have hds := ih fun x hx => h x (List.mem_append_left _ hx)
    rw [ofDigits_append_singleton, List.length_append, List.length_singleton, Nat.pow_succ]
    omega

theorem pow_le_ofDigits {d : Nat} (hd : d ≠ 0) (ds : List Nat) :
    10 ^ ds.length ≤ ofDigits (d :: ds) := by
  have hsplit := ofDigits_append [d] ds
  have hhead : ofDigits [d] = d := by simp [ofDigits]
  rw [List.singleton_append, hhead] at hsplit
  rw [hsplit]
  calc 10 ^ ds.length = 1 * 10 ^ ds.length := (Nat.one_mul _).symm
    _ ≤ d * 10 ^ ds.length := Nat.mul_le_mul_right _ (Nat.pos_of_ne_zero hd)
    _ ≤ d * 10 ^ ds.length + ofDigits ds := Nat.le_add_right ..

namespace Decimal

theorem digits_ofScaled_eq (n : Nat) (k : Int) :
    (ofScaled n k).digits = ((digitsOf n).reverse.dropWhile (· == 0)).reverse := rfl

/-- Zeros at the end of a number can be taken into the power of ten. -/
theorem ofScaled_mul_pow {n : Nat} (hn : n ≠ 0) (z : Nat) (k : Int) :
    ofScaled (n * 10 ^ z) k = ofScaled n (k + z) := by
  have hzeros : (List.replicate z 0 ++ (digitsOf n).reverse).dropWhile (· == 0) =
      (digitsOf n).reverse.dropWhile (· == 0) := by
    rw [List.dropWhile_append_of_pos]
    simp
  unfold ofScaled
  dsimp only
  rw [digitsOf_mul_pow hn, List.reverse_append, List.reverse_replicate, hzeros, List.length_append,
    List.length_replicate]
  congr 1
  push_cast
  ring

/-- The last digit is no zero. -/
theorem getLast?_digits_ofScaled (n : Nat) (k : Int) : (ofScaled n k).digits.getLast? ≠ some 0 := by
  rw [digits_ofScaled_eq, List.getLast?_reverse]
  intro h
  have hstop := List.head?_dropWhile_not (· == 0) (digitsOf n).reverse
  rw [h] at hstop
  exact absurd hstop (by decide)

theorem length_digits_ofScaled_le {n j : Nat} (hn : n ≠ 0) (hj : j ≠ 0) (h : n ≤ 10 ^ j) (k : Int) :
    (ofScaled n k).digits.length ≤ j := by
  rcases h.lt_or_eq with hlt | rfl
  · obtain ⟨zeros, hdigits⟩ := digits_ofScaled n k
    have hlength := length_digitsOf_le hj hlt
    rw [hdigits, List.length_append] at hlength
    omega
  · have hone := ofScaled_mul_pow one_ne_zero j k
    rw [Nat.one_mul] at hone
    have hdigits : (ofScaled 1 (k + j)).digits = [1] := by
      rw [digits_ofScaled_eq, digitsOf]
      rfl
    rw [hone, hdigits, List.length_singleton]
    omega

/-! ## The point -/

/-- The point of a quotient stands behind its leading digit. -/
theorem pointOf_spec {n d : Nat} (hn : n ≠ 0) (hd : d ≠ 0) :
    (10 : ℚ) ^ (pointOf n d - 1) ≤ n / d ∧ (n / d : ℚ) < 10 ^ pointOf n d := by
  have hn0 : (0 : ℚ) < n := by exact_mod_cast Nat.pos_of_ne_zero hn
  have hd0 : (0 : ℚ) < d := by exact_mod_cast Nat.pos_of_ne_zero hd
  unfold pointOf
  split_ifs with hle
  · -- The whole part of the quotient has the digits in front of the point.
    have hq : n / d ≠ 0 := (Nat.div_pos hle (Nat.pos_of_ne_zero hd)).ne'
    have hlow := pow_length_digitsOf_le hq
    have hhigh := lt_pow_length_digitsOf (n / d)
    generalize (digitsOf (n / d)).length = L at *
    rw [zpow_sub_one₀ (by norm_num), zpow_natCast, le_div_iff₀ hd0, div_lt_iff₀ hd0]
    have hmul : n / d * d ≤ n := Nat.div_mul_le_self n d
    have hlt : n < (n / d + 1) * d := by
      rw [← Nat.div_lt_iff_lt_mul (Nat.pos_of_ne_zero hd)]
      omega
    constructor
    · have hstep : 10 ^ L * d ≤ n * 10 := by
        calc 10 ^ L * d ≤ 10 * (n / d) * d := Nat.mul_le_mul_right _ hlow
          _ = n / d * d * 10 := by ring
          _ ≤ n * 10 := Nat.mul_le_mul_right _ hmul
      have hcast : (10 ^ L * d : ℚ) ≤ n * 10 := by exact_mod_cast hstep
      linarith
    · have hstep : n < 10 ^ L * d := hlt.trans_le (Nat.mul_le_mul_right _ hhigh)
      exact_mod_cast hstep
  · -- The digits of the inverse are the zeros behind the point.
    have hr : (d - 1) / n ≠ 0 := (Nat.div_pos (by omega) (Nat.pos_of_ne_zero hn)).ne'
    have hlow := pow_length_digitsOf_le hr
    have hhigh := lt_pow_length_digitsOf ((d - 1) / n)
    generalize (digitsOf ((d - 1) / n)).length = L at *
    have hmul : (d - 1) / n * n ≤ d - 1 := Nat.div_mul_le_self (d - 1) n
    have hlt : d - 1 < ((d - 1) / n + 1) * n := by
      rw [← Nat.div_lt_iff_lt_mul (Nat.pos_of_ne_zero hn)]
      omega
    have hlow' : (1 : Int) - L - 1 = -L := by ring
    rw [hlow', zpow_neg, zpow_natCast, zpow_sub₀ (by norm_num), zpow_one, zpow_natCast,
      inv_eq_one_div, div_le_div_iff₀ (by positivity) hd0, div_lt_div_iff₀ hd0 (by positivity)]
    constructor
    · have hstep : d ≤ n * 10 ^ L := by
        have : ((d - 1) / n + 1) * n ≤ n * 10 ^ L := by
          rw [Nat.mul_comm]
          exact Nat.mul_le_mul_left _ hhigh
        omega
      rw [one_mul]
      exact_mod_cast hstep
    · have hstep : n * 10 ^ L < 10 * d := by
        calc n * 10 ^ L ≤ n * (10 * ((d - 1) / n)) := Nat.mul_le_mul_left _ hlow
          _ = 10 * ((d - 1) / n * n) := by ring
          _ < 10 * d := by omega
      exact_mod_cast hstep

/-! ## Grids -/

/-- A quarter of `2 ^ e` on the grid of `k`, all lengths being scaled to be
natural numbers. -/
def quarterOn (e k : Int) : Nat :=
  Nat.pow 2 (e - 2).toNat * Nat.pow 10 (-k).toNat

/-- The distance of two points of a grid. -/
def stepOn (e k : Int) : Nat :=
  Nat.pow 2 (2 - e).toNat * Nat.pow 10 k.toNat

/-- The point of a grid below a double. -/
def floorOn (m : Nat) (e k : Int) : Nat :=
  4 * m * quarterOn e k / stepOn e k

/-- What is left between the double and that point. -/
def restOn (m : Nat) (e k : Int) : Nat :=
  4 * m * quarterOn e k % stepOn e k

/-- Whether the point below is taken where the one above would do as well. -/
def lowerOn (tie : TieRule) (m : Nat) (e k : Int) : Bool :=
  if 2 * restOn m e k = stepOn e k then
    match tie with
    | .up => false
    | .even => floorOn m e k % 2 == 0
  else decide (2 * restOn m e k < stepOn e k)

/-- Whether a point of a grid rounds to a double. -/
def readsOn (m : Nat) (e k : Int) (n : Nat) : Bool :=
  inInterval m (lowQuarters m e * quarterOn e k) (highQuarters m * quarterOn e k) (n * stepOn e k)

theorem readsOn_iff {m : Nat} {e k : Int} {n : Nat} :
    readsOn m e k n = true ↔ RoundsTo m e (n * 10 ^ k) :=
  inInterval_scaled m n e k

theorem gridPoint?_eq (tie : TieRule) (m : Nat) (e k : Int) :
    gridPoint? tie m e k =
      match readsOn m e k (floorOn m e k), readsOn m e k (floorOn m e k + 1) with
      | true, true => some (if lowerOn tie m e k then floorOn m e k else floorOn m e k + 1)
      | true, false => some (floorOn m e k)
      | false, true => some (floorOn m e k + 1)
      | false, false => none :=
  rfl

theorem stepOn_pos (e k : Int) : 0 < stepOn e k :=
  Nat.mul_pos (Nat.pow_pos (by omega)) (Nat.pow_pos (by omega))

/-- The scaled double. -/
theorem scaled_mul (m : Nat) (e k : Int) :
    ((4 * m * quarterOn e k : ℕ) : ℚ) * 10 ^ k = m * 2 ^ e * stepOn e k := by
  have htwo := pow_toNat (b := 2) two_ne_zero (e - 2)
  rw [neg_sub, zpow_sub₀ two_ne_zero] at htwo
  unfold quarterOn stepOn
  push_cast [Nat.pow_eq]
  rw [htwo, pow_toNat (by norm_num) k]
  norm_num
  ring

/-- The scaled distance between the double and the point below. -/
theorem rest_mul (m : Nat) (e k : Int) :
    (restOn m e k : ℚ) * 10 ^ k = (m * 2 ^ e - floorOn m e k * 10 ^ k) * stepOn e k := by
  have hdiv : (stepOn e k * floorOn m e k + restOn m e k : ℚ) = (4 * m * quarterOn e k : ℕ) := by
    exact_mod_cast Nat.div_add_mod (4 * m * quarterOn e k) (stepOn e k)
  rw [sub_mul, ← scaled_mul, ← hdiv]
  ring

theorem floorOn_spec (m : Nat) (e k : Int) :
    (floorOn m e k : ℚ) * 10 ^ k ≤ m * 2 ^ e ∧ (m : ℚ) * 2 ^ e < (floorOn m e k + 1) * 10 ^ k := by
  have hrest := rest_mul m e k
  have hstep : (0 : ℚ) < stepOn e k := by exact_mod_cast stepOn_pos e k
  have hgrid : (0 : ℚ) < 10 ^ k := by positivity
  have hlt : (restOn m e k : ℚ) < stepOn e k := by exact_mod_cast Nat.mod_lt _ (stepOn_pos e k)
  constructor
  · have hnonneg : 0 ≤ (m * 2 ^ e - floorOn m e k * 10 ^ k : ℚ) * stepOn e k := by
      rw [← hrest]
      positivity
    exact sub_nonneg.mp (nonneg_of_mul_nonneg_left hnonneg hstep)
  · have hless : (m * 2 ^ e - floorOn m e k * 10 ^ k : ℚ) * stepOn e k < 10 ^ k * stepOn e k := by
      rw [← hrest, mul_comm]
      gcongr
    linarith [lt_of_mul_lt_mul_right hless hstep.le]

/-- The nearer point is taken. -/
theorem lowerOn_spec (tie : TieRule) (m : Nat) (e k : Int) :
    (lowerOn tie m e k = true → 2 * ((m : ℚ) * 2 ^ e - floorOn m e k * 10 ^ k) ≤ 10 ^ k) ∧
      (lowerOn tie m e k = false → 10 ^ k ≤ 2 * ((m : ℚ) * 2 ^ e - floorOn m e k * 10 ^ k)) := by
  have hrest := rest_mul m e k
  have hstep : (0 : ℚ) < stepOn e k := by exact_mod_cast stepOn_pos e k
  have hgrid : (0 : ℚ) < 10 ^ k := by positivity
  unfold lowerOn
  constructor
  · intro h
    have hle : 2 * restOn m e k ≤ stepOn e k := by
      split_ifs at h with heq
      · exact heq.le
      · exact (of_decide_eq_true h).le
    have hcast : (2 * restOn m e k : ℚ) ≤ stepOn e k := by exact_mod_cast hle
    refine le_of_mul_le_mul_right ?_ hstep
    linarith [mul_le_mul_of_nonneg_right hcast hgrid.le]
  · intro h
    have hle : stepOn e k ≤ 2 * restOn m e k := by
      split_ifs at h with heq
      · exact heq.ge
      · exact not_lt.mp (of_decide_eq_false h)
    have hcast : (stepOn e k : ℚ) ≤ 2 * restOn m e k := by exact_mod_cast hle
    refine le_of_mul_le_mul_right ?_ hstep
    linarith [mul_le_mul_of_nonneg_right hcast hgrid.le]

/-- The point of a grid is one of the neighbours of the double, and not the
farther one of two that round to it. Without a point neither of them does. -/
theorem gridPoint?_cases (tie : TieRule) (m : Nat) (e k : Int) :
    (gridPoint? tie m e k = none ∧ ¬RoundsTo m e (floorOn m e k * 10 ^ k) ∧
        ¬RoundsTo m e ((floorOn m e k + 1 : ℕ) * 10 ^ k)) ∨
      (gridPoint? tie m e k = some (floorOn m e k) ∧
        (RoundsTo m e ((floorOn m e k + 1 : ℕ) * 10 ^ k) →
          2 * ((m : ℚ) * 2 ^ e - floorOn m e k * 10 ^ k) ≤ 10 ^ k)) ∨
      (gridPoint? tie m e k = some (floorOn m e k + 1) ∧
        (RoundsTo m e (floorOn m e k * 10 ^ k) →
          10 ^ k ≤ 2 * ((m : ℚ) * 2 ^ e - floorOn m e k * 10 ^ k))) := by
  obtain ⟨hlower, hupper⟩ := lowerOn_spec tie m e k
  rw [gridPoint?_eq, ← readsOn_iff, ← readsOn_iff]
  cases readsOn m e k (floorOn m e k) with
  | false => cases readsOn m e k (floorOn m e k + 1) <;> simp
  | true =>
    cases readsOn m e k (floorOn m e k + 1) with
    | false => simp
    | true =>
      cases hside : lowerOn tie m e k with
      | true => exact .inr (.inl ⟨rfl, fun _ => hlower hside⟩)
      | false => exact .inr (.inr ⟨rfl, fun _ => hupper hside⟩)

variable {tie : TieRule} {m : Nat} {e k : Int}

/-- If a point of a grid rounds to the double, then so does the neighbour of
the double on its side. -/
theorem neighbour_of_roundsTo (hm : m ≠ 0) {c : Nat} (h : RoundsTo m e (c * 10 ^ k)) :
    (c ≤ floorOn m e k ∧ RoundsTo m e (floorOn m e k * 10 ^ k)) ∨
      (floorOn m e k + 1 ≤ c ∧ RoundsTo m e ((floorOn m e k + 1 : ℕ) * 10 ^ k)) := by
  obtain ⟨hlow, hhigh⟩ := floorOn_spec m e k
  have hself := roundsTo_self hm e
  rcases Nat.lt_or_ge (floorOn m e k) c with hlt | hle
  · refine .inr ⟨hlt, hself.convex h ?_ ?_⟩
    · push_cast
      exact hhigh.le
    · gcongr
      exact_mod_cast hlt
  · refine .inl ⟨hle, h.convex hself ?_ hlow⟩
    gcongr

/-- A grid on which something rounds to the double has a point. -/
theorem exists_gridPoint? (tie : TieRule) (hm : m ≠ 0) {c : Nat} (h : RoundsTo m e (c * 10 ^ k)) :
    ∃ n, gridPoint? tie m e k = some n := by
  rcases gridPoint?_cases tie m e k with ⟨-, hbelow, habove⟩ | ⟨hfound, -⟩ | ⟨hfound, -⟩
  · rcases neighbour_of_roundsTo hm h with ⟨-, hrounds⟩ | ⟨-, hrounds⟩
    · exact absurd hrounds hbelow
    · exact absurd hrounds habove
  · exact ⟨_, hfound⟩
  · exact ⟨_, hfound⟩

/-- No point of the grid that rounds to the double is nearer to it. -/
theorem gridPoint?_nearest (hm : m ≠ 0) {n : Nat} (hn : gridPoint? tie m e k = some n) {c : Nat}
    (hc : RoundsTo m e (c * 10 ^ k)) :
    |(n : ℚ) * 10 ^ k - m * 2 ^ e| ≤ |(c : ℚ) * 10 ^ k - m * 2 ^ e| := by
  obtain ⟨hlow, hhigh⟩ := floorOn_spec m e k
  have hgrid : (0 : ℚ) < 10 ^ k := by positivity
  have hside : (c : ℚ) * 10 ^ k ≤ floorOn m e k * 10 ^ k ∧
        RoundsTo m e (floorOn m e k * 10 ^ k) ∨
      (floorOn m e k + 1) * 10 ^ k ≤ (c : ℚ) * 10 ^ k ∧
        RoundsTo m e ((floorOn m e k + 1 : ℕ) * 10 ^ k) := by
    refine (neighbour_of_roundsTo hm hc).imp (fun h => ⟨?_, h.2⟩) (fun h => ⟨?_, h.2⟩)
    · gcongr
      exact h.1
    · gcongr
      exact_mod_cast h.1
  have hpoint := gridPoint?_cases tie m e k
  generalize (c : ℚ) * 10 ^ k = x at *
  generalize (m : ℚ) * 2 ^ e = v at *
  rcases hpoint with ⟨hnone, -⟩ | ⟨hsome, hnear⟩ | ⟨hsome, hnear⟩
  · rw [hnone] at hn
    exact nomatch hn
  · obtain rfl := Option.some.inj (hsome.symm.trans hn)
    rw [abs_of_nonpos (by linarith)]
    rcases hside with ⟨hx, -⟩ | ⟨hx, hrounds⟩
    · exact le_abs.mpr (.inr (by linarith))
    · exact le_abs.mpr (.inl (by linarith [hnear hrounds]))
  · obtain rfl := Option.some.inj (hsome.symm.trans hn)
    push_cast
    rw [abs_of_nonneg (by linarith)]
    rcases hside with ⟨hx, hrounds⟩ | ⟨hx, -⟩
    · exact le_abs.mpr (.inr (by linarith [hnear hrounds]))
    · exact le_abs.mpr (.inl (by linarith))

/-- Seventeen digits are enough: a grid as fine as that has a point within
half a unit of the double, and within a quarter below a power of two. -/
theorem exists_gridPoint?_of_fine (tie : TieRule) (hc : Canonical m e) (hm : m ≠ 0)
    (hfine : (10 : ℚ) ^ 16 * 10 ^ k ≤ m * 2 ^ e) : ∃ n, gridPoint? tie m e k = some n := by
  obtain ⟨hlow, hhigh⟩ := floorOn_spec m e k
  have hunit : (0 : ℚ) < 2 ^ e := by positivity
  have hlong : (m : ℚ) * 2 ^ e < 2 ^ 53 * 2 ^ e := by
    gcongr
    exact_mod_cast hc.1
  have hbound : (highQuarters m : ℚ) = 4 * m + 2 := by
    rw [highQuarters]
    push_cast
    ring
  by_cases hnear : 2 * ((floorOn m e k + 1 : ℕ) * 10 ^ k - (m : ℚ) * 2 ^ e) ≤ 10 ^ k
  · refine exists_gridPoint? tie hm (c := floorOn m e k + 1) (RoundsTo.of_lt ?_ ?_)
    · have hquarters : (lowQuarters m e : ℚ) ≤ 4 * m - 1 := by
        rw [Double.cast_lowQuarters hm]
        split_ifs <;> linarith
      have hmul := mul_le_mul_of_nonneg_right hquarters hunit.le
      push_cast
      linarith
    · rw [hbound]
      linarith
  · push_cast at hnear
    refine exists_gridPoint? tie hm (c := floorOn m e k) (RoundsTo.of_lt ?_ ?_)
    · rw [Double.cast_lowQuarters hm]
      split_ifs with hpower
      · have hvalue : (m : ℚ) * 2 ^ e = 2 ^ 52 * 2 ^ e := by
          rw [hpower.1]
          push_cast [Nat.pow_eq]
          rfl
        linarith
      · linarith
    · rw [hbound]
      linarith

end Decimal

end PagePreview
