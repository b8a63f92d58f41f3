/-
PagePreview.Proofs.Number.Notation — what is written for a double says what
the double is.

Both notations write a decimal as a sign, digits, at most one point among
them and at most one exponent. `Decimal.numeral` says which digits stand
where, and its number is the number of the decimal, whichever way it is
written.

* `Numeral.text` — a numeral as text.
* `Decimal.text_numeral` — a decimal is written as its numeral.
* `Decimal.value_numeral` — the numeral of a decimal has its value.
* `Notation.finite_eq` — a double is written as a numeral that is read as
  the double.
-/
import PagePreview.Number.Notation
import PagePreview.Number.Numeral
import PagePreview.Proofs.Number.Decimal

namespace PagePreview

namespace Numeral

/-! ## Numerals as text -/

def signText (negative : Bool) : List Char :=
  if negative then ['-'] else []

/-- A point and the digits behind it, if there are any. -/
def fractionText : List Nat → List Char
  | [] => []
  | d :: ds => '.' :: Notation.digitText (d :: ds)

/-- An exponent always has a sign. -/
def exponentText : Option Int → List Char
  | none => []
  | some e => 'e' :: (if e < 0 then '-' else '+') :: Notation.natText e.natAbs

def text (n : Numeral) : List Char :=
  signText n.negative ++ (Notation.digitText n.whole ++
    (fractionText n.fraction ++ exponentText n.exponent))

/-- The number that a numeral stands for, apart from its sign. -/
def value (n : Numeral) : ℚ :=
  ofDigits (n.whole ++ n.fraction) * 10 ^ (n.exponent.getD 0 - n.fraction.length)

/-- A numeral whose digits are digits, and whose whole part begins with a
zero only if it is zero. -/
structure Grammatical (n : Numeral) : Prop where
  ne_nil : n.whole ≠ []
  whole : ∀ d ∈ n.whole, d < 10
  fraction : ∀ d ∈ n.fraction, d < 10
  head : n.whole.head? = some 0 → n.whole = [0]

theorem toDouble_eq {n : Numeral} {m : Nat} {e : Int} (hc : Canonical m e) (hm : m ≠ 0)
    (h : RoundsTo m e n.value) : n.toDouble = .finite n.negative m e hc :=
  Double.ofDecimal_eq n.negative hc hm h

theorem toDouble_eq_zero {n : Numeral} (h : n.value = 0) : n.toDouble = .zero n.negative := by
  have hdigits : ofDigits (n.whole ++ n.fraction) = 0 := by
    have hpower : (10 : ℚ) ^ (n.exponent.getD 0 - n.fraction.length) ≠ 0 := by positivity
    exact_mod_cast (mul_eq_zero.mp h).resolve_right hpower
  rw [toDouble, hdigits]
  rfl

end Numeral

namespace Decimal

/-! ## Decimals as numerals -/

/-- The numeral that is written for a decimal. -/
def numeral (style : Notation) (negative : Bool) (d : Decimal) : Numeral :=
  if style.plainFrom ≤ d.point ∧ d.point ≤ style.plainTo then
    if d.point ≤ 0 then ⟨negative, [0], List.replicate (-d.point).toNat 0 ++ d.digits, none⟩
    else if d.digits.length ≤ d.point.toNat then
      ⟨negative, d.digits ++ List.replicate (d.point.toNat - d.digits.length) 0,
        if style.pointZero then [0] else [], none⟩
    else ⟨negative, d.digits.take d.point.toNat, d.digits.drop d.point.toNat, none⟩
  else ⟨negative, d.digits.take 1, d.digits.drop 1, some (d.point - 1)⟩

@[simp] theorem negative_numeral (style : Notation) (negative : Bool) (d : Decimal) :
    (d.numeral style negative).negative = negative := by
  unfold numeral
  split_ifs <;> rfl

theorem fractionText_of_ne_nil {ds : List Nat} (h : ds ≠ []) :
    Numeral.fractionText ds = '.' :: Notation.digitText ds := by
  obtain ⟨d, rest, rfl⟩ := List.exists_cons_of_ne_nil h
  rfl

/-- A decimal is written as its numeral. -/
theorem text_numeral (style : Notation) (negative : Bool) {d : Decimal} (h : d.Proper) :
    (d.numeral style negative).text = Numeral.signText negative ++ style.decimal d := by
  unfold numeral Notation.decimal
  by_cases hplain : style.plainFrom ≤ d.point ∧ d.point ≤ style.plainTo
  · rw [if_pos hplain, if_pos hplain, Notation.plain]
    by_cases hpoint : d.point ≤ 0
    · have hfraction : List.replicate (-d.point).toNat 0 ++ d.digits ≠ [] := by simp [h.ne_nil]
      simp [Numeral.text, if_pos hpoint, fractionText_of_ne_nil hfraction,
        Numeral.exponentText, Notation.digitText, Notation.digitChar]
    · rw [if_neg hpoint, if_neg hpoint]
      by_cases hwhole : d.digits.length ≤ d.point.toNat
      · rw [if_pos hwhole, if_pos hwhole]
        cases style.pointZero <;>
          simp [Numeral.text, Numeral.fractionText, Numeral.exponentText, Notation.digitText,
            Notation.digitChar]
      · have hfraction : d.digits.drop d.point.toNat ≠ [] := by
          rw [Ne, List.drop_eq_nil_iff]
          exact hwhole
        rw [if_neg hwhole, if_neg hwhole]
        simp [Numeral.text, fractionText_of_ne_nil hfraction, Numeral.exponentText]
  · rw [if_neg hplain, if_neg hplain, Notation.scientific]
    rcases hfraction : d.digits.drop 1 with _ | ⟨x, rest⟩ <;>
      simp [Numeral.text, Numeral.fractionText, Numeral.exponentText, Notation.digitText]

theorem ofDigits_replicate_append (n : Nat) (ds : List Nat) :
    ofDigits (List.replicate n 0 ++ ds) = ofDigits ds := by
  rw [ofDigits_append, ofDigits_replicate_zero, Nat.zero_mul, Nat.zero_add]

theorem ofDigits_append_replicate (n : Nat) (ds : List Nat) :
    ofDigits (ds ++ List.replicate n 0) = ofDigits ds * 10 ^ n := by
  rw [ofDigits_append, ofDigits_replicate_zero, List.length_replicate, Nat.add_zero]

/-- The numeral of a decimal has its value. -/
theorem value_numeral (style : Notation) (negative : Bool) {d : Decimal} (h : d.Proper) :
    (d.numeral style negative).value = d.value := by
  have hlength := List.length_pos_iff.mpr h.ne_nil
  unfold numeral value Numeral.value
  split_ifs with hplain hpoint hwhole hzero
  · have hdigits : [0] ++ (List.replicate (-d.point).toNat 0 ++ d.digits) =
        List.replicate ((-d.point).toNat + 1) 0 ++ d.digits := by
      rw [List.replicate_succ]
      rfl
    simp only [hdigits, ofDigits_replicate_append, List.length_append, List.length_replicate,
      Option.getD_none]
    congr 2
    omega
  · have hdigits : d.digits ++ List.replicate (d.point.toNat - d.digits.length) 0 ++ [0] =
        d.digits ++ List.replicate (d.point.toNat - d.digits.length + 1) 0 := by
      rw [List.replicate_succ', List.append_assoc]
    simp only [hdigits, ofDigits_append_replicate, List.length_singleton, Option.getD_none,
      Nat.cast_mul, Nat.cast_pow, Nat.cast_ofNat]
    rw [mul_assoc, ← zpow_natCast, ← zpow_add₀ (by norm_num)]
    congr 2
    omega
  · simp only [List.append_nil, List.length_nil, ofDigits_append_replicate, Option.getD_none,
      Nat.cast_mul, Nat.cast_pow, Nat.cast_ofNat]
    rw [mul_assoc, ← zpow_natCast, ← zpow_add₀ (by norm_num)]
    congr 2
    omega
  · simp only [List.take_append_drop, List.length_drop, Option.getD_none]
    congr 2
    omega
  · simp only [List.take_append_drop, List.length_drop, Option.getD_some]
    congr 2
    omega

/-- The digits of a numeral are digits, and its whole part begins with a zero
only if it is zero. -/
theorem grammatical_numeral (style : Notation) (negative : Bool) {d : Decimal} (h : d.Proper) :
    (d.numeral style negative).Grammatical := by
  have hzeros : ∀ (n : Nat) (x : Nat), x ∈ List.replicate n 0 → x < 10 := fun n x hx => by
    rw [List.eq_of_mem_replicate hx]
    omega
  unfold numeral
  split_ifs with hplain hpoint hwhole hzero
  · refine ⟨by simp, by simp, fun x hx => ?_, fun _ => rfl⟩
    exact (List.mem_append.mp hx).elim (hzeros _ x) (h.digit x)
  · refine ⟨by simp [h.ne_nil], fun x hx => ?_, by simp, fun hhead => ?_⟩
    · exact (List.mem_append.mp hx).elim (h.digit x) (hzeros _ x)
    · rw [List.head?_append_of_ne_nil _ h.ne_nil] at hhead
      rw [h.head hhead]
      rfl
  · refine ⟨by simp [h.ne_nil], fun x hx => ?_, by simp, fun hhead => ?_⟩
    · exact (List.mem_append.mp hx).elim (h.digit x) (hzeros _ x)
    · rw [List.head?_append_of_ne_nil _ h.ne_nil] at hhead
      rw [h.head hhead]
      rfl
  · refine ⟨?_, fun x hx => h.digit x (List.mem_of_mem_take hx),
      fun x hx => h.digit x (List.mem_of_mem_drop hx), fun hhead => ?_⟩
    · simp only [ne_eq, List.take_eq_nil_iff, h.ne_nil, or_false]
      omega
    · rw [List.head?_take, if_neg (by omega)] at hhead
      rw [h.head hhead] at hwhole
      exact absurd (by decide) hwhole
  · refine ⟨by simp [h.ne_nil], fun x hx => h.digit x (List.mem_of_mem_take hx),
      fun x hx => h.digit x (List.mem_of_mem_drop hx), fun hhead => ?_⟩
    rw [List.head?_take, if_neg (by omega)] at hhead
    rw [h.head hhead]
    rfl

/-- A notation that shows the point of whole numbers shows a point or an
exponent always. -/
theorem numeral_pointed {style : Notation} (hstyle : style.pointZero) (negative : Bool)
    {d : Decimal} (h : d.Proper) :
    (d.numeral style negative).fraction ≠ [] ∨ (d.numeral style negative).exponent ≠ none := by
  unfold numeral
  split_ifs with hplain hpoint hwhole
  · exact .inl (by simp [h.ne_nil])
  · exact .inl (List.cons_ne_nil 0 [])
  · exact .inl (by simpa [List.drop_eq_nil_iff] using hwhole)
  · exact .inr (Option.some_ne_none _)

end Decimal

/-! ## Doubles as numerals -/

namespace Notation

/-- The digits of a natural number are those in which it is printed. -/
theorem natText_eq_toDigits (n : Nat) : natText n = Nat.toDigits 10 n := by
  have hdigit : ∀ d < 10, digitChar d = d.digitChar := by decide
  unfold natText
  fun_induction digitsOf n with
  | case1 n hn => rw [Nat.toDigits_of_lt_base hn, digitText, List.map_singleton, hdigit n hn]
  | case2 n hn ih =>
    rw [Nat.toDigits_of_base_le (by decide) (by omega), ← ih, digitText, List.map_append,
      List.map_singleton, hdigit _ (Nat.mod_lt n (by decide))]
    rfl

/-- The decimal that is written for a double. -/
def decimalOf (style : Notation) (m : Nat) (e : Int) : Decimal :=
  if m = 0 then .zero else .shortest style.tie m e

/-- Whether a sign is written for a double. -/
def showsSign (style : Notation) (negative : Bool) (m : Nat) : Bool :=
  negative && (m != 0 || style.signedZero)

/-- The numeral that is written for a double. -/
def numeral (style : Notation) (negative : Bool) (m : Nat) (e : Int) : Numeral :=
  (style.decimalOf m e).numeral style (style.showsSign negative m)

theorem proper_decimalOf (style : Notation) (m : Nat) (e : Int) :
    (style.decimalOf m e).Proper := by
  unfold decimalOf
  split_ifs with hm
  · exact Decimal.proper_zero
  · exact (Decimal.shortest_spec _ hm e).1

/-- A double is written as its numeral. -/
theorem finite_eq (style : Notation) (negative : Bool) (m : Nat) (e : Int) :
    style.finite negative m e = (style.numeral negative m e).text := by
  rw [numeral, Decimal.text_numeral style _ (style.proper_decimalOf m e), finite]
  have hsign : style.showsSign negative m = true ↔ negative ∧ (m ≠ 0 ∨ style.signedZero) := by
    simp [showsSign]
  rw [Numeral.signText]
  by_cases hshown : style.showsSign negative m = true
  · rw [if_pos hshown, List.singleton_append]
    exact if_pos (hsign.mp hshown)
  · rw [if_neg hshown, List.nil_append]
    exact if_neg (mt hsign.mpr hshown)

/-- The numeral of a double is read as the double, but for a sign of zero
that is not written. -/
theorem toDouble_numeral (style : Notation) (negative : Bool) {m : Nat} {e : Int}
    (hc : Canonical m e) :
    (style.numeral negative m e).toDouble = .finite (style.showsSign negative m) m e hc := by
  have hproper := style.proper_decimalOf m e
  have hvalue := Decimal.value_numeral style (style.showsSign negative m) hproper
  have hsign := Decimal.negative_numeral style (style.showsSign negative m) (style.decimalOf m e)
  unfold numeral
  by_cases hm : m = 0
  · subst hm
    obtain rfl : e = -1074 := hc.2.2.2.resolve_left (by decide)
    have hzero : style.decimalOf 0 (-1074) = .zero := rfl
    rw [hzero] at hvalue hsign ⊢
    rw [Numeral.toDouble_eq_zero (hvalue.trans Decimal.value_zero), hsign]
    rfl
  · have hshortest : style.decimalOf m e = .shortest style.tie m e := if_neg hm
    rw [hshortest] at hvalue hsign ⊢
    have hround := hvalue ▸ (Decimal.shortest_spec style.tie hm e).2
    rw [Numeral.toDouble_eq hc hm hround]
    simp only [hsign]

end Notation

end PagePreview
