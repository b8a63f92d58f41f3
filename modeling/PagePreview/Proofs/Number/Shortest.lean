/-
PagePreview.Proofs.Number.Shortest — the shortest decimal of a double is the
shortest.

A double is known from any number that rounds to it, so a decimal is read as
the double if it lies in its interval. Grids are tried from the leading digit
of the double downwards. A decimal with as many digits as the grid that is
tried has a place on that grid, unless it is below the leading digit of the
double, and then the power of ten there is nearer.

* `Decimal.shortest_first` — the first grid with a point gives the digits.
* `Decimal.exists_onGrid` — decimals and grids.
* `Decimal.isShortest_shortest` — of the decimals that are read as a double
  none is shorter than the one that is found, and of those with as many
  digits none is nearer to the double.
-/
import PagePreview.Proofs.Number.Grid

namespace PagePreview

/-! ## The search -/

/-- The first place at which something is found. -/
theorem findSome?_range_eq_some {α : Type} {f : Nat → Option α} {a : α} : ∀ {N i : Nat}, i < N →
    f i = some a → (∀ j < i, f j = none) → (List.range N).findSome? f = some a
  | 0, i, hi, _, _ => absurd hi (Nat.not_lt_zero i)
  | N + 1, i, hi, hfound, hnone => by
      rw [List.range_succ, List.findSome?_append]
      rcases Nat.lt_succ_iff_lt_or_eq.mp hi with hlt | rfl
      · rw [findSome?_range_eq_some hlt hfound hnone]
        rfl
      · have hbefore : (List.range i).findSome? f = none :=
          List.findSome?_eq_none_iff.mpr fun j hj => hnone j (List.mem_range.mp hj)
        simp [hbefore, hfound]

namespace Decimal

/-! ## The size of a decimal -/

theorem Proper.value_lt {d : Decimal} (hd : d.Proper) : d.value < 10 ^ d.point := by
  have hdigits : (ofDigits d.digits : ℚ) < 10 ^ (d.digits.length : Int) := by
    rw [zpow_natCast]
    exact_mod_cast ofDigits_lt hd.digit
  calc d.value < 10 ^ (d.digits.length : Int) * 10 ^ (d.point - d.digits.length) := by
        unfold value
        gcongr
    _ = 10 ^ d.point := by
        rw [← zpow_add₀ (by norm_num)]
        congr 1
        ring

theorem Proper.pow_le_value {d : Decimal} (hd : d.Proper) (hne : d ≠ zero) :
    10 ^ (d.point - 1) ≤ d.value := by
  obtain ⟨x, ds, hdigits⟩ := List.exists_cons_of_ne_nil hd.ne_nil
  have hx : x ≠ 0 := by
    rintro rfl
    exact hne (hd.head (by rw [hdigits]; rfl))
  have hle : (10 : ℚ) ^ (ds.length : Int) ≤ ofDigits d.digits := by
    rw [zpow_natCast, hdigits]
    exact_mod_cast pow_le_ofDigits hx ds
  have hlength : (d.digits.length : Int) = ds.length + 1 := by
    rw [hdigits, List.length_cons]
    push_cast
    ring
  calc (10 : ℚ) ^ (d.point - 1) = 10 ^ (ds.length : Int) * 10 ^ (d.point - d.digits.length) := by
        rw [← zpow_add₀ (by norm_num)]
        congr 1
        omega
    _ ≤ d.value := by
        unfold value
        gcongr

theorem Proper.lt_point_iff {d : Decimal} (hd : d.Proper) (hne : d ≠ zero) (j : Int) :
    j < d.point ↔ 10 ^ j ≤ d.value := by
  have hten : (1 : ℚ) < 10 := by norm_num
  constructor
  · intro hlt
    calc (10 : ℚ) ^ j ≤ 10 ^ (d.point - 1) := zpow_le_zpow_right₀ hten.le (by omega)
      _ ≤ d.value := hd.pow_le_value hne
  · intro hle
    exact (zpow_lt_zpow_iff_right₀ hten).mp (hle.trans_lt hd.value_lt)

/-! ## The first grid -/

variable {tie : TieRule} {m : Nat} {e k : Int}

/-- Where the point of a double stands. -/
def leadingPoint (m : Nat) (e : Int) : Int :=
  pointOf (m * Nat.pow 2 e.toNat) (Nat.pow 2 (-e).toNat)

theorem leadingPoint_spec (hm : m ≠ 0) (e : Int) :
    (10 : ℚ) ^ (leadingPoint m e - 1) ≤ m * 2 ^ e ∧ (m : ℚ) * 2 ^ e < 10 ^ leadingPoint m e := by
  have hvalue := mul_pow_div_pow two_ne_zero m e
  rw [Nat.cast_two] at hvalue
  rw [← hvalue]
  exact pointOf_spec (Nat.mul_ne_zero hm (Nat.pow_pos (by omega)).ne') (Nat.pow_pos (by omega)).ne'

/-- The shortest decimal is the point of the first grid that has one. -/
theorem shortest_first (tie : TieRule) (hc : Canonical m e) (hm : m ≠ 0) :
    ∃ i n : Nat, gridPoint? tie m e (leadingPoint m e - 1 - i) = some n ∧
      (∀ j < i, gridPoint? tie m e (leadingPoint m e - 1 - j) = none) ∧
      shortest tie m e = ofScaled n (leadingPoint m e - 1 - i) := by
  have hlast : ∃ n, gridPoint? tie m e (leadingPoint m e - 1 - (16 : ℕ)) = some n := by
    refine exists_gridPoint?_of_fine tie hc hm ?_
    rw [← zpow_natCast, ← zpow_add₀ (by norm_num)]
    convert (leadingPoint_spec hm e).1 using 2
    push_cast
    ring
  have hsome : ∃ i, ∃ n, gridPoint? tie m e (leadingPoint m e - 1 - (i : ℕ)) = some n :=
    ⟨16, hlast⟩
  classical
  obtain ⟨n, hn⟩ := Nat.find_spec hsome
  have hnone : ∀ j < Nat.find hsome, gridPoint? tie m e (leadingPoint m e - 1 - j) = none :=
    fun j hj => Option.eq_none_iff_forall_ne_some.mpr fun n h => Nat.find_min hsome hj ⟨n, h⟩
  refine ⟨Nat.find hsome, n, hn, hnone, ?_⟩
  have hlt : Nat.find hsome < 17 := Nat.lt_succ_of_le (Nat.find_min' hsome hlast)
  unfold shortest
  dsimp only
  rw [List.findSome?_map, ← leadingPoint, findSome?_range_eq_some (a := ofScaled n _) hlt]
  · rfl
  · simp only [Function.comp, hn, Option.map_some]
  · intro j hj
    simp only [Function.comp, hnone j hj, Option.map_none]

/-! ## The shortest decimal -/

/-- For a decimal that rounds to a double there is a point as near on the grid
with as many digits, counted from the leading digit of the double. -/
theorem exists_onGrid (hm : m ≠ 0) {d : Decimal} (hd : d.Proper) (h : RoundsTo m e d.value) :
    ∃ c : Nat, RoundsTo m e (c * 10 ^ (leadingPoint m e - d.digits.length)) ∧
      |(c : ℚ) * 10 ^ (leadingPoint m e - d.digits.length) - m * 2 ^ e| ≤
        |d.value - m * 2 ^ e| := by
  obtain ⟨hlow, hhigh⟩ := leadingPoint_spec hm e
  have hlength : 0 < d.digits.length := List.length_pos_iff.mpr hd.ne_nil
  rcases lt_or_ge d.value (10 ^ (leadingPoint m e - 1)) with hlt | hge
  · -- The power of ten at the leading digit lies between the two.
    have hpower : ((10 ^ (d.digits.length - 1) : ℕ) : ℚ) *
        10 ^ (leadingPoint m e - d.digits.length) = 10 ^ (leadingPoint m e - 1) := by
      push_cast
      rw [← zpow_natCast, ← zpow_add₀ (by norm_num)]
      congr 1
      omega
    refine ⟨10 ^ (d.digits.length - 1), ?_, ?_⟩
    · rw [hpower]
      exact h.convex (roundsTo_self hm e) hlt.le hlow
    · rw [hpower, abs_of_nonpos (by linarith), abs_of_nonpos (by linarith)]
      linarith
  · -- The decimal is on the grid itself.
    have hpoint : leadingPoint m e ≤ d.point := by
      have hlt := (zpow_lt_zpow_iff_right₀ (by norm_num)).mp (hge.trans_lt hd.value_lt)
      omega
    have hvalue : ((ofDigits d.digits * 10 ^ (d.point - leadingPoint m e).toNat : ℕ) : ℚ) *
        10 ^ (leadingPoint m e - d.digits.length) = d.value := by
      push_cast
      rw [value, mul_assoc, ← zpow_natCast, ← zpow_add₀ (by norm_num)]
      congr 2
      omega
    exact ⟨_, hvalue.symm ▸ h, hvalue.symm ▸ le_rfl⟩

/-- A decimal that rounds to a double has as many digits as it takes to get
to the first grid with a point. -/
theorem lt_length_of_gridPoint?_eq_none (hm : m ≠ 0) {i : Nat}
    (hnone : ∀ j < i, gridPoint? tie m e (leadingPoint m e - 1 - j) = none) {d : Decimal}
    (hd : d.Proper) (h : RoundsTo m e d.value) : i < d.digits.length := by
  by_contra hle
  have hlength : 0 < d.digits.length := List.length_pos_iff.mpr hd.ne_nil
  obtain ⟨c, hc, -⟩ := exists_onGrid hm hd h
  obtain ⟨n, hn⟩ := exists_gridPoint? tie hm hc
  have hearlier := hnone (d.digits.length - 1) (by omega)
  have hgrid : leadingPoint m e - 1 - ((d.digits.length - 1 : ℕ) : Int) =
      leadingPoint m e - d.digits.length := by omega
  rw [hgrid, hn] at hearlier
  exact nomatch hearlier

theorem gridPoint?_le {n : Nat} {i : Nat} (hm : m ≠ 0)
    (h : gridPoint? tie m e (leadingPoint m e - 1 - i) = some n) : n ≤ 10 ^ (i + 1) := by
  obtain ⟨hlow, -⟩ := floorOn_spec m e (leadingPoint m e - 1 - i)
  obtain ⟨-, hhigh⟩ := leadingPoint_spec hm e
  have hgrid : (0 : ℚ) < 10 ^ (leadingPoint m e - 1 - i) := by positivity
  have hpower : (10 : ℚ) ^ leadingPoint m e =
      10 ^ (i + 1) * 10 ^ (leadingPoint m e - 1 - i) := by
    rw [← zpow_natCast, ← zpow_add₀ (by norm_num)]
    congr 1
    push_cast
    ring
  have hfloor : floorOn m e (leadingPoint m e - 1 - i) < 10 ^ (i + 1) := by
    have hcast : (floorOn m e (leadingPoint m e - 1 - i) : ℚ) < 10 ^ (i + 1) := by
      refine lt_of_mul_lt_mul_right ?_ hgrid.le
      rw [← hpower]
      exact hlow.trans_lt hhigh
    exact_mod_cast hcast
  rcases gridPoint?_cases tie m e (leadingPoint m e - 1 - i) with
    ⟨hnone, -⟩ | ⟨hsome, -⟩ | ⟨hsome, -⟩
  · rw [hnone] at h
    exact nomatch h
  · rw [hsome] at h
    cases h
    exact hfloor.le
  · rw [hsome] at h
    cases h
    exact hfloor

/-- The shortest decimal has as few digits as any that rounds to the double,
and of those with as many digits none is nearer. -/
theorem shortest_minimal (tie : TieRule) (hc : Canonical m e) (hm : m ≠ 0) {d : Decimal}
    (hd : d.Proper) (h : RoundsTo m e d.value) :
    (shortest tie m e).digits.length ≤ d.digits.length ∧
      (d.digits.length = (shortest tie m e).digits.length →
        |(shortest tie m e).value - m * 2 ^ e| ≤ |d.value - m * 2 ^ e|) := by
  obtain ⟨i, n, hn, hnone, hshortest⟩ := shortest_first tie hc hm
  have hn0 := ne_zero_of_roundsTo hm (roundsTo_of_gridPoint? hn)
  have hlength : (shortest tie m e).digits.length ≤ i + 1 :=
    hshortest ▸ length_digits_ofScaled_le hn0 (by omega) (gridPoint?_le hm hn) _
  have hcount := lt_length_of_gridPoint?_eq_none hm hnone hd h
  refine ⟨by omega, fun heq => ?_⟩
  obtain ⟨c, hrounds, hnear⟩ := exists_onGrid hm hd h
  have hgrid : leadingPoint m e - (d.digits.length : Int) = leadingPoint m e - 1 - i := by omega
  rw [hgrid] at hrounds hnear
  rw [hshortest, value_ofScaled]
  exact (gridPoint?_nearest hm hn hrounds).trans hnear

/-- The number that is read where the decimal is written. -/
def toDouble (d : Decimal) : Double :=
  .ofDecimal false (ofDigits d.digits) (d.point - d.digits.length)

theorem toDouble_eq_iff {hc : Canonical m e} (hm : m ≠ 0) {d : Decimal} :
    d.toDouble = .finite false m e hc ↔ RoundsTo m e d.value :=
  Double.ofDecimal_eq_finite_iff hm

/-- Of all decimals that are read as a double, one with the fewest digits, and
of those one that is nearest to the double. It does not end in a zero. -/
structure IsShortest (hc : Canonical m e) (d : Decimal) : Prop where
  proper : d.Proper
  last : d.digits.getLast? ≠ some 0
  reads : d.toDouble = .finite false m e hc
  least : ∀ d' : Decimal, d'.Proper → d'.toDouble = .finite false m e hc →
    d.digits.length ≤ d'.digits.length
  nearest : ∀ d' : Decimal, d'.Proper → d'.toDouble = .finite false m e hc →
    d'.digits.length = d.digits.length → |d.value - m * 2 ^ e| ≤ |d'.value - m * 2 ^ e|

theorem isShortest_shortest (tie : TieRule) (hc : Canonical m e) (hm : m ≠ 0) :
    (shortest tie m e).IsShortest hc := by
  obtain ⟨hproper, hround⟩ := shortest_spec tie hm e
  obtain ⟨i, n, -, -, hfirst⟩ := shortest_first tie hc hm
  refine ⟨hproper, ?_, (toDouble_eq_iff hm).mpr hround, fun d hd hread => ?_,
    fun d hd hread => ?_⟩
  · rw [hfirst]
    exact getLast?_digits_ofScaled n _
  · exact (shortest_minimal tie hc hm hd ((toDouble_eq_iff hm).mp hread)).1
  · exact (shortest_minimal tie hc hm hd ((toDouble_eq_iff hm).mp hread)).2

/-! ## Shortest decimals and powers of ten -/

variable {hc : Canonical m e} {d : Decimal}

theorem IsShortest.roundsTo (h : d.IsShortest hc) (hm : m ≠ 0) : RoundsTo m e d.value :=
  (toDouble_eq_iff hm).mp h.reads

theorem IsShortest.ne_zero (h : d.IsShortest hc) (hm : m ≠ 0) : d ≠ zero := by
  rintro rfl
  have hpos := pos_of_roundsTo hm (h.roundsTo hm)
  rw [value_zero] at hpos
  exact lt_irrefl _ hpos

/-- A shortest decimal is not below a power of ten if the double is not
below the double of that power. -/
theorem IsShortest.pow_le_value_iff (h : d.IsShortest hc) (hm : m ≠ 0) {m' : Nat} {e' j : Int}
    (hc' : Canonical m' e') (hm' : m' ≠ 0) (hpower : RoundsTo m' e' (10 ^ j))
    (hnear : 19 * (10 : ℚ) ^ j < 20 * (m' * 2 ^ e')) :
    10 ^ j ≤ d.value ↔ (m' : ℚ) * 2 ^ e' ≤ m * 2 ^ e := by
  have hround := h.roundsTo hm
  constructor
  · exact hpower.mono hc' hc hm' hm hround
  · intro hle
    by_contra hlt
    rw [not_le] at hlt
    have heq := le_antisymm hle (hround.mono hc hc' hm hm' hpower hlt.le)
    obtain ⟨rfl, rfl⟩ : m = m' ∧ e = e' := by
      have hself := roundsTo_self hm' e'
      rw [heq] at hself
      exact (roundsTo_self hm e).unique hc hc' hm hm' hself
    -- The power itself is a decimal with one digit, and a nearer one.
    have hproper : (Decimal.mk [1] (j + 1)).Proper := ⟨by simp, by simp, by simp⟩
    have hone : (Decimal.mk [1] (j + 1)).value = 10 ^ j := by
      simp [value, ofDigits]
    have hread : (Decimal.mk [1] (j + 1)).toDouble = .finite false m e hc :=
      (toDouble_eq_iff hm).mpr (hone ▸ hpower)
    have hlength : d.digits.length = 1 :=
      le_antisymm (h.least _ hproper hread) (List.length_pos_iff.mpr h.proper.ne_nil)
    have hnearest := h.nearest _ hproper hread hlength.symm
    have hdigit : 10 * d.value ≤ 9 * 10 ^ j := by
      obtain ⟨x, hx⟩ := List.length_eq_one_iff.mp hlength
      have hvalue : d.value = x * 10 ^ (d.point - 1) := by
        simp [value, ofDigits, hx]
      have hle : (x : ℚ) ≤ 9 := by
        have hlt := h.proper.digit x (by rw [hx]; exact List.mem_singleton_self x)
        exact_mod_cast Nat.le_of_lt_succ hlt
      have hpoint : d.point ≤ j := not_lt.mp fun hj =>
        absurd ((h.proper.lt_point_iff (h.ne_zero hm) j).mp hj) (not_le.mpr hlt)
      calc 10 * d.value = x * 10 ^ (d.point - 1 + 1) := by
            rw [hvalue, zpow_add_one₀ (by norm_num)]
            ring
        _ ≤ 9 * 10 ^ j := by
            gcongr
            · norm_num
            · omega
    rw [hone, abs_of_nonpos (by linarith), heq] at hnearest
    rcases abs_cases ((10 : ℚ) ^ j - m * 2 ^ e) with ⟨habs, -⟩ | ⟨habs, -⟩
    · linarith
    · linarith

end Decimal

end PagePreview
