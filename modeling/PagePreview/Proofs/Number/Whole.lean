/-
PagePreview.Proofs.Number.Whole — integers and the doubles next to them.

A double to which a whole number rounds has a whole number as its shortest
decimal, since the grid of whole numbers has a point. Up to 2⁵³ every whole
number is a double and its own shortest decimal. Above, the doubles are
farther apart than whole numbers, and a double is shown by whichever of them
has the fewest digits before the zeros at its end. An integer that is written
with all of its digits may then be another one.

* `exists_canonical_of_le`, `RoundsTo.value_eq_of_le` — whole numbers that
  are doubles.
* `Decimal.exists_shortest_eq` — a shortest decimal that is whole.
* `Double.IsShown`, `Double.exists_isShown_ofInt` — the integer that is shown
  for a double.
* `Json.Number.pageText_integer` — when an integer and its double have the
  same text.
-/
import PagePreview.Backend.Store
import PagePreview.Proofs.Number.PageText

namespace PagePreview

/-! ## Whole numbers as doubles -/

/-- Whole numbers of fifty-three bits are doubles, and so is the next one. -/
theorem exists_canonical_of_le {a : Nat} (ha : a ≠ 0) (h : a ≤ 2 ^ 53) :
    ∃ (m : Nat) (e : Int), Canonical m e ∧ m ≠ 0 ∧ (m : ℚ) * 2 ^ e = a := by
  rcases h.lt_or_eq with hlt | rfl
  · have hle : 2 ^ a.log2 ≤ a := Nat.log2_self_le ha
    have hup : a < 2 ^ (a.log2 + 1) := Nat.lt_log2_self
    have hlog : a.log2 < 53 := (Nat.log2_lt ha).mpr hlt
    obtain ⟨j, hj⟩ : ∃ j, a.log2 + j = 52 := ⟨52 - a.log2, by omega⟩
    have hlow : 2 ^ 52 ≤ a * 2 ^ j := by
      rw [← hj, Nat.pow_add]
      exact Nat.mul_le_mul_right _ hle
    have hhigh : a * 2 ^ j < 2 ^ 53 := by
      have hsum : 53 = a.log2 + 1 + j := by omega
      rw [hsum, Nat.pow_add]
      exact Nat.mul_lt_mul_of_pos_right hup (Nat.two_pow_pos j)
    refine ⟨a * 2 ^ j, -j, ⟨hhigh, by omega, by omega, .inl hlow⟩, by omega, ?_⟩
    rw [zpow_neg, zpow_natCast]
    push_cast
    field_simp
  · exact ⟨2 ^ 52, 1, by decide, by decide, by norm_num⟩

theorem exists_roundsTo_of_le {a : Nat} (ha : a ≠ 0) (h : a ≤ 2 ^ 53) :
    ∃ (m : Nat) (e : Int), Canonical m e ∧ m ≠ 0 ∧ (m : ℚ) * 2 ^ e = a ∧ RoundsTo m e a := by
  obtain ⟨m, e, hc, hm, hvalue⟩ := exists_canonical_of_le ha h
  exact ⟨m, e, hc, hm, hvalue, hvalue ▸ Decimal.roundsTo_self hm e⟩

namespace RoundsTo

variable {m a : Nat} {e : Int}

theorem ne_zero (hm : m ≠ 0) (h : RoundsTo m e a) : a ≠ 0 := by
  rintro rfl
  simpa using Decimal.pos_of_roundsTo hm h

/-- A whole number that is a double rounds to no other. -/
theorem value_eq_of_le (hc : Canonical m e) (hm : m ≠ 0) (h : RoundsTo m e a) (ha : a ≤ 2 ^ 53) :
    (m : ℚ) * 2 ^ e = a := by
  obtain ⟨m', e', hc', hm', hvalue, hself⟩ := exists_roundsTo_of_le (h.ne_zero hm) ha
  obtain ⟨rfl, rfl⟩ := unique hc hc' hm hm' h hself
  exact hvalue

/-- A double to which a whole number rounds is not below one. -/
theorem one_le_value (hc : Canonical m e) (hm : m ≠ 0) (h : RoundsTo m e a) :
    1 ≤ (m : ℚ) * 2 ^ e := by
  obtain ⟨m', e', hc', hm', hvalue, hself⟩ := exists_roundsTo_of_le one_ne_zero Nat.one_le_two_pow
  have hle := hself.mono hc' hc hm' hm h
    (by exact_mod_cast Nat.pos_of_ne_zero (h.ne_zero hm))
  rwa [hvalue, Nat.cast_one] at hle

/-- The next double after 2⁵³ is 2⁵³ + 2. -/
theorem le_of_last (h : RoundsTo (2 ^ 52) 1 a) : a ≤ 2 ^ 53 + 1 := by
  have hhigh := (Double.bounds_of_roundsTo (by decide) h).1.2
  norm_num at hhigh
  have hcast : 2 * a ≤ 18014398509481986 := by exact_mod_cast hhigh
  omega

end RoundsTo

namespace Double

/-- A quotient that is not below one, and not beyond all doubles, is rounded
to a finite double other than zero. -/
theorem exists_ofRatio {n d : Nat} (negative : Bool) (hd : d ≠ 0) (hone : (1 : ℚ) ≤ n / d)
    (hlt : (n / d : ℚ) < 2 ^ (1023 : Int)) :
    ∃ (m : Nat) (e : Int) (hc : Canonical m e), m ≠ 0 ∧
      ofRatio negative n d = finite negative m e hc := by
  have hn : n ≠ 0 := by
    rintro rfl
    norm_num at hone
  obtain ⟨hple, hplt⟩ := binaryOrder_spec hn hd
  have hhigh : binaryOrder n d < 1023 :=
    (zpow_lt_zpow_iff_right₀ one_lt_two).mp (hple.trans_lt hlt)
  have hlow : 0 < binaryOrder n d + 1 := by
    refine (zpow_lt_zpow_iff_right₀ (one_lt_two (α := ℚ))).mp ?_
    rw [zpow_zero]
    exact hone.trans_lt hplt
  obtain ⟨hlong, hfull⟩ := significandAt_cases hn hd rfl
  rw [ofRatio_eq_ofRounded negative hn rfl]
  generalize hexponent : max (-1074) (binaryOrder n d - 52) = e at *
  have hsignificand : 2 ^ 52 ≤ significandAt n d e := hfull.resolve_right (by omega)
  generalize significandAt n d e = M at *
  have hpow : Nat.pow 2 53 = 2 ^ 53 ∧ Nat.pow 2 52 = 2 ^ 52 := ⟨rfl, rfl⟩
  unfold ofRounded
  split_ifs with hc hhalf
  · exact ⟨M, e, hc, by omega, rfl⟩
  · exact ⟨M / 2, e + 1, hhalf, by omega, rfl⟩
  · unfold Canonical at hc hhalf
    omega

theorem exists_ofInt {n : Int} (hn : n ≠ 0) (h : n.natAbs < 2 ^ 64) :
    ∃ (m : Nat) (e : Int) (hc : Canonical m e), m ≠ 0 ∧
      ofInt n = finite (decide (n < 0)) m e hc := by
  refine exists_ofRatio _ one_ne_zero ?_ ?_
  · rw [Nat.cast_one, div_one]
    exact_mod_cast Nat.pos_of_ne_zero (Int.natAbs_ne_zero.mpr hn)
  · rw [Nat.cast_one, div_one]
    calc (n.natAbs : ℚ) < 2 ^ (64 : Int) := by exact_mod_cast h
      _ ≤ 2 ^ (1023 : Int) := zpow_le_zpow_right₀ one_le_two (by omega)

/-- The integers that are rounded to a double have its sign. -/
theorem ofInt_eq_finite_iff {n : Int} {negative : Bool} {m : Nat} {e : Int} {hc : Canonical m e}
    (hm : m ≠ 0) :
    ofInt n = finite negative m e hc ↔ decide (n < 0) = negative ∧ RoundsTo m e n.natAbs := by
  have hvalue : ((n.natAbs : ℕ) : ℚ) / (1 : ℕ) = n.natAbs := by rw [Nat.cast_one, div_one]
  constructor
  · intro h
    have hround := roundsTo_of_ofRatio one_ne_zero hm h
    rwa [hvalue] at hround
  · rintro ⟨rfl, hround⟩
    exact ofRatio_eq _ hc hm one_ne_zero (hvalue.symm ▸ hround)

end Double

/-! ## Whole decimals -/

namespace Decimal

variable {m : Nat} {e : Int}

/-- If a whole number rounds to a double, then the shortest decimal of the
double is whole: the grid of whole numbers has a point. -/
theorem exists_shortest_eq (tie : TieRule) (hc : Canonical m e) (hm : m ≠ 0) {a : Nat}
    (h : RoundsTo m e a) : ∃ s : Nat, shortest tie m e = ofScaled s 0 ∧ RoundsTo m e s := by
  obtain ⟨i, n, hn, hnone, hfirst⟩ := shortest_first tie hc hm
  have hround := roundsTo_of_gridPoint? hn
  have hn0 := ne_zero_of_roundsTo hm hround
  rcases le_or_gt 0 (leadingPoint m e - 1 - i) with hk | hk
  · obtain ⟨k, hk⟩ := Int.eq_ofNat_of_zero_le hk
    rw [hk] at hfirst hround
    refine ⟨n * 10 ^ k, ?_, ?_⟩
    · rw [hfirst, ofScaled_mul_pow hn0 k 0, zero_add]
    · rw [zpow_natCast] at hround
      exact_mod_cast hround
  · -- The double is at least one, so the grid of whole numbers was tried before.
    have hpoint : 0 < leadingPoint m e := by
      refine (zpow_lt_zpow_iff_right₀ (by norm_num : (1 : ℚ) < 10)).mp ?_
      rw [zpow_zero]
      exact (h.one_le_value hc hm).trans_lt (leadingPoint_spec hm e).2
    have hzero : RoundsTo m e (a * 10 ^ (0 : Int)) := by rwa [zpow_zero, mul_one]
    obtain ⟨c, hc⟩ := exists_gridPoint? tie hm hzero
    have hearlier := hnone (leadingPoint m e - 1).toNat (by omega)
    have hgrid : leadingPoint m e - 1 - ((leadingPoint m e - 1).toNat : Int) = 0 := by omega
    rw [hgrid, hc] at hearlier
    exact nomatch hearlier

/-- Digits and zeros up to the point, which is not too far away. -/
theorem decimal_ofScaled_zero {s : Nat} (h : (digitsOf s).length ≤ 21) :
    Notation.page.decimal (ofScaled s 0) = Notation.natText s := by
  obtain ⟨zeros, hdigits⟩ := digits_ofScaled s 0
  have hlength := congrArg List.length hdigits
  rw [List.length_append, List.length_replicate] at hlength
  have hpoint : (ofScaled s 0).point = (digitsOf s).length := by
    rw [ofScaled]
    simp
  have hne := List.length_pos_iff.mpr (digitsOf_ne_nil s)
  have hplain := (page_plain_iff (ofScaled s 0).point).mpr (by omega)
  have hzeros : (ofScaled s 0).point.toNat - (ofScaled s 0).digits.length = zeros := by omega
  have hwhole : ¬Notation.page.pointZero = true := by decide
  rw [Notation.decimal, if_pos hplain, Notation.plain, if_neg (by omega), if_pos (by omega),
    if_neg hwhole, hzeros, List.append_nil, Notation.natText, hdigits, Notation.digitText,
    Notation.digitText, List.map_append, List.map_replicate]
  rfl

/-- The whole number that is shown for an integer of sixty-four bits has its
point where a page shows no exponent. -/
theorem length_digitsOf_shortest {tie : TieRule} (hc : Canonical m e) (hm : m ≠ 0) {a s : Nat}
    (ha : a < 2 ^ 64) (h : RoundsTo m e a) (hs : shortest tie m e = ofScaled s 0) :
    (digitsOf s).length ≤ 21 := by
  have hleast := h.one_le_value hc hm
  have hgreatest : (m : ℚ) * 2 ^ e ≤ 2 ^ 64 := by
    have hself := roundsTo_self (m := 2 ^ 52) (by decide) 12
    have hle : (a : ℚ) ≤ (2 ^ 52 : ℕ) * 2 ^ (12 : Int) := by
      have hcast : (a : ℚ) ≤ 2 ^ 64 := by exact_mod_cast ha.le
      norm_num at hcast ⊢
      exact hcast
    have hmono := h.mono hc (by decide) hm (by decide) hself hle
    norm_num at hmono ⊢
    exact hmono
  have hpoint := ((isShortest_shortest tie hc hm).plain_iff hm).mpr
    ⟨by norm_num; linarith, by norm_num at hgreatest ⊢; linarith⟩
  rw [hs, ofScaled] at hpoint
  simpa using hpoint.2

/-- A whole number of fifty-three bits is shown as it is. -/
theorem shortest_eq_of_le {tie : TieRule} (hc : Canonical m e) (hm : m ≠ 0) {a s : Nat}
    (ha : a ≤ 2 ^ 53) (h : RoundsTo m e a) (hs : shortest tie m e = ofScaled s 0)
    (hround : RoundsTo m e s) : s = a := by
  have hvalue := h.value_eq_of_le hc hm ha
  rcases le_or_gt s (2 ^ 53) with hle | hlt
  · have hcast : (s : ℚ) = a := (hround.value_eq_of_le hc hm hle).symm.trans hvalue
    exact_mod_cast hcast
  · -- Only the last of them has another whole number in its interval.
    have hlast : RoundsTo m e (2 ^ 53 : ℕ) :=
      h.convex hround (by exact_mod_cast ha) (by exact_mod_cast hlt.le)
    have hvalue' := hlast.value_eq_of_le hc hm le_rfl
    obtain ⟨rfl, rfl⟩ : m = 2 ^ 52 ∧ e = 1 := by
      have hself := roundsTo_self (m := 2 ^ 52) (by decide) 1
      refine hlast.unique hc (by decide) hm (by decide) ?_
      convert hself using 1
      norm_num
    have hnext : s = 2 ^ 53 + 1 := le_antisymm hround.le_of_last hlt
    have hnearest := (isShortest_shortest tie hc hm).nearest (ofScaled (2 ^ 53) 0)
      (proper_ofScaled (by decide) 0)
      ((toDouble_eq_iff hm).mpr (by rw [value_ofScaled, zpow_zero, mul_one]; exact hlast))
      (by rw [hs, hnext]; decide +kernel)
    rw [hs, value_ofScaled, value_ofScaled, zpow_zero, mul_one, mul_one, hvalue', sub_self,
      abs_zero, hnext] at hnearest
    norm_num at hnearest

end Decimal

/-- The text of an integer. -/
theorem ofList_intText (n : Int) : String.ofList (Notation.intText n) = toString n := by
  rw [Notation.intText, Int.toString_eq_repr, Int.repr_eq_if]
  rcases lt_or_ge n 0 with hn | hn
  · have habs : n.natAbs = (-n).toNat := by omega
    rw [if_pos hn, if_neg (by omega), Notation.natText_eq_toDigits, Nat.repr_eq_ofList_toDigits,
      habs, ← List.singleton_append, String.ofList_append]
  · have habs : n.natAbs = n.toNat := by omega
    rw [if_neg (by omega), if_pos hn, Notation.natText_eq_toDigits, Nat.repr_eq_ofList_toDigits,
      habs]

namespace Double

/-- The number that a finite double stands for. -/
def value? : Double → Option ℚ
  | finite negative m e _ => some (signed negative m * 2 ^ e)
  | _ => none

/-- How many digits of an integer there are without the zeros at its end. -/
def significant (n : Int) : Nat :=
  (Decimal.ofScaled n.natAbs 0).digits.length

/-- An integer that says with the fewest digits which double is meant, and of
those one that is nearest to the double. -/
structure IsShown (x : Double) (s : Int) : Prop where
  reads : ofInt s = x
  least : ∀ t, ofInt t = x → significant s ≤ significant t
  nearest : ∀ t v, ofInt t = x → significant t = significant s → x.value? = some v →
    |(s : ℚ) - v| ≤ |(t : ℚ) - v|

theorem natAbs_signed (negative : Bool) (a : Nat) : (signed negative a).natAbs = a := by
  cases negative <;> simp [signed]

theorem signed_natAbs (n : Int) : signed (decide (n < 0)) n.natAbs = n := by
  unfold signed
  split_ifs with hn
  · have := of_decide_eq_true hn
    omega
  · have := of_decide_eq_false (Bool.eq_false_iff.mpr hn)
    omega

theorem decide_signed_lt {a : Nat} (ha : a ≠ 0) (negative : Bool) :
    decide (signed negative a < 0) = negative := by
  cases negative <;> simp [signed, Nat.pos_of_ne_zero ha]

theorem abs_signed_sub (negative : Bool) (a m : Nat) (e : Int) :
    |(signed negative a : ℚ) - signed negative m * 2 ^ e| = |(a : ℚ) - m * 2 ^ e| := by
  cases negative with
  | false => simp [signed]
  | true =>
    rw [← abs_neg]
    congr 1
    simp [signed]
    ring

theorem isShown_zero : (zero false).IsShown 0 := by
  refine ⟨rfl, fun t _ => ?_, fun t v _ _ hv => ?_⟩
  · have hnone : significant 0 = 0 := by decide +kernel
    rw [hnone]
    exact Nat.zero_le _
  · obtain rfl := Option.some.inj hv
    simp [signed]

/-- An integer whose digits are those of a shortest decimal. -/
theorem isShown_signed {m a : Nat} {e : Int} {hc : Canonical m e} (negative : Bool) (hm : m ≠ 0)
    (h : (Decimal.ofScaled a 0).IsShortest hc) :
    (finite negative m e hc).IsShown (signed negative a) := by
  have hround := h.roundsTo hm
  rw [Decimal.value_ofScaled, zpow_zero, mul_one] at hround
  have ha := hround.ne_zero hm
  -- Any integer that is rounded to the double is a decimal that is read as it.
  have hother : ∀ t, ofInt t = finite negative m e hc → decide (t < 0) = negative ∧
      (Decimal.ofScaled t.natAbs 0).Proper ∧
        (Decimal.ofScaled t.natAbs 0).toDouble = finite false m e hc := by
    intro t ht
    obtain ⟨hsign, ht⟩ := (ofInt_eq_finite_iff hm).mp ht
    refine ⟨hsign, Decimal.proper_ofScaled (ht.ne_zero hm) 0, (Decimal.toDouble_eq_iff hm).mpr ?_⟩
    rwa [Decimal.value_ofScaled, zpow_zero, mul_one]
  refine ⟨?_, fun t ht => ?_, fun t v ht hlength hv => ?_⟩
  · refine (ofInt_eq_finite_iff hm).mpr ⟨decide_signed_lt ha negative, ?_⟩
    rwa [natAbs_signed]
  · obtain ⟨-, hproper, hread⟩ := hother t ht
    rw [significant, natAbs_signed]
    exact h.least _ hproper hread
  · obtain ⟨hsign, hproper, hread⟩ := hother t ht
    rw [significant, significant, natAbs_signed] at hlength
    have hnearest := h.nearest _ hproper hread hlength
    rw [Decimal.value_ofScaled, Decimal.value_ofScaled, zpow_zero, mul_one, mul_one] at hnearest
    obtain rfl := Option.some.inj hv
    rwa [← signed_natAbs t, hsign, abs_signed_sub, abs_signed_sub]

/-- The text of a double whose shortest decimal is whole. -/
theorem pageText_of_whole {m a : Nat} {e : Int} {hc : Canonical m e} (negative : Bool) (hm : m ≠ 0)
    (ha : a ≠ 0) (h : Decimal.shortest Notation.page.tie m e = Decimal.ofScaled a 0)
    (hlength : (digitsOf a).length ≤ 21) :
    (finite negative m e hc).pageText = toString (signed negative a) := by
  have hsign := decide_signed_lt ha negative
  rw [pageText_finite negative hm, h, Decimal.decimal_ofScaled_zero hlength, ← ofList_intText,
    Notation.intText, natAbs_signed]
  cases negative with
  | false =>
    rw [if_neg (of_decide_eq_false hsign)]
    rfl
  | true =>
    rw [if_pos (of_decide_eq_true hsign), ← List.singleton_append, String.ofList_append]
    rfl

/-- What is shown for an integer of sixty-four bits as a double. -/
theorem exists_isShown_ofInt {n : Int} (h : n.natAbs < 2 ^ 64) :
    ∃ s : Int, (ofInt n).IsShown s ∧ (ofInt n).pageText = toString s ∧
      (n.natAbs ≤ 2 ^ 53 → s = n) := by
  by_cases hn : n = 0
  · subst hn
    exact ⟨0, isShown_zero, by decide +kernel, fun _ => rfl⟩
  · obtain ⟨m, e, hc, hm, heq⟩ := exists_ofInt hn h
    have hround := ((ofInt_eq_finite_iff hm).mp heq).2
    obtain ⟨a, hwhole, ha⟩ := Decimal.exists_shortest_eq Notation.page.tie hc hm hround
    have hshortest := Decimal.isShortest_shortest Notation.page.tie hc hm
    have hlength := Decimal.length_digitsOf_shortest hc hm h hround hwhole
    rw [hwhole] at hshortest
    refine ⟨signed (decide (n < 0)) a, ?_, ?_, fun hle => ?_⟩
    · rw [heq]
      exact isShown_signed _ hm hshortest
    · rw [heq]
      exact pageText_of_whole _ hm (ha.ne_zero hm) hwhole hlength
    · rw [Decimal.shortest_eq_of_le hc hm hle hround hwhole ha, signed_natAbs]

end Double

namespace Json

/-- An integer is written with all of its digits, and the double next to it
with those that it takes to tell the double from others. The two are the same
text if the integer itself is the one that is shown, as it is up to 2⁵³. -/
theorem Number.pageText_integer {n : Int} (h : (Number.integer n).Readable) :
    ∃ s : Int, (Double.ofInt n).IsShown s ∧ (Number.double (.ofInt n)).pageText = toString s ∧
      ((Number.integer n).pageText = (Number.double (.ofInt n)).pageText ↔ s = n) ∧
      (n.natAbs ≤ 2 ^ 53 → s = n) := by
  have hlt : n.natAbs < 2 ^ 64 := by
    obtain ⟨hleast, hgreatest⟩ := h
    have hpow : (Nat.pow 2 63 : Int) = 2 ^ 63 ∧ (Nat.pow 2 64 : Int) = 2 ^ 64 := ⟨rfl, rfl⟩
    omega
  obtain ⟨s, hshown, htext, hsmall⟩ := Double.exists_isShown_ofInt hlt
  refine ⟨s, hshown, htext, ?_, hsmall⟩
  rw [pageText, pageText, htext, ofList_intText, Int.toString_eq_repr, Int.toString_eq_repr,
    Int.repr_inj, eq_comm]

/-- The double is `2⁶⁰` itself and is shown with sixteen digits and zeros. -/
theorem Number.pageText_integer_power :
    (Number.integer (2 ^ 60)).Readable ∧
      ∃ s : Int, (Double.ofInt (2 ^ 60)).IsShown s ∧ toString s = "1152921504606847000" ∧
        s ≠ 2 ^ 60 := by
  have hreadable : (Number.integer (2 ^ 60)).Readable := ⟨by decide, by decide⟩
  have htext : (Number.double (.ofInt (2 ^ 60))).pageText = "1152921504606847000" := by
    decide +kernel
  have hne : (Number.integer (2 ^ 60)).pageText ≠ (Number.double (.ofInt (2 ^ 60))).pageText := by
    decide +kernel
  obtain ⟨s, hshown, hs, hiff, -⟩ := Number.pageText_integer hreadable
  exact ⟨hreadable, s, hshown, hs.symm.trans htext, fun h => hne (hiff.mpr h)⟩

/-- The first integer that is no double is not shown as one. -/
theorem Number.pageText_integer_odd :
    ¬∀ n : Int, (Number.integer n).Readable →
      (Number.integer n).pageText = (Number.double (.ofInt n)).pageText := by
  intro h
  have heq := h 9007199254740993 ⟨by decide, by decide⟩
  revert heq
  decide +kernel

end Json

end PagePreview
