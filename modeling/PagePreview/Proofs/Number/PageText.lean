/-
PagePreview.Proofs.Number.PageText — a number that appears on a page can be
read back, and it is laid out as in a script.

The text of a double is the text of a numeral that is read as the double. It
holds no white space, announces no base and is no infinity, so the number
that it stands for is the one of its numeral. The digits are those of a
shortest decimal of the double, and whether they are laid out with an
exponent can be told from the double: a millionth and `10²¹`, which have a
decimal with one digit, are never rounded past.

* `Numeral.ofText?_text` — a numeral that is written is read.
* `Double.ofPageText_pageText` — the number that a text on a page stands for.
* `Decimal.Layout`, `Decimal.layout_decimal` — the layout of a script.
* `Double.pageText_spec` — both for all doubles, and the first by their bits.
-/
import PagePreview.Proofs.Json.Number
import PagePreview.Proofs.Number.PageNumber
import PagePreview.Proofs.Number.Shortest

namespace PagePreview

/-! ## Bits -/

namespace Double

/-- The sign, the exponent and the fraction make up the bits. -/
theorem signBit_add (n : Nat) (h : n < 2 ^ 64) :
    signBit (decide (Nat.pow 2 63 ≤ n)) + n / Nat.pow 2 52 % Nat.pow 2 11 * Nat.pow 2 52 +
      n % Nat.pow 2 52 = n := by
  simp only [signBit, Nat.pow_eq, decide_eq_true_eq]
  split_ifs <;> omega

/-- Every double but the one that is no number has one form as bits. -/
theorem toBits_ofBits {bits : UInt64} (h : ofBits bits ≠ nan) : (ofBits bits).toBits = bits := by
  have hparts := signBit_add bits.toNat bits.toNat_lt
  have hback : UInt64.ofNat bits.toNat = bits := UInt64.ofNat_toNat
  have hfraction : bits.toNat % Nat.pow 2 52 < Nat.pow 2 52 := Nat.mod_lt _ (by decide)
  unfold ofBits at h ⊢
  dsimp only at h ⊢
  by_cases hspecial : bits.toNat / Nat.pow 2 52 % Nat.pow 2 11 = 2047
  · rw [if_pos hspecial] at h ⊢
    by_cases hzero : bits.toNat % Nat.pow 2 52 = 0
    · rw [if_pos hzero, toBits]
      rw [hspecial, hzero, Nat.add_zero] at hparts
      rw [hparts, hback]
    · exact absurd (if_neg hzero) h
  · rw [if_neg hspecial] at h ⊢
    by_cases hzero : bits.toNat / Nat.pow 2 52 % Nat.pow 2 11 = 0
    · rw [dif_pos hzero, toBits, if_pos hfraction]
      rw [hzero, Nat.zero_mul, Nat.add_zero] at hparts
      rw [hparts, hback]
    · rw [dif_neg hzero] at h ⊢
      by_cases hlt : bits.toNat / Nat.pow 2 52 % Nat.pow 2 11 < 2047
      · have hbiased (b : Nat) : ((b : Int) - 1075 + 1075).toNat = b := by omega
        rw [dif_pos hlt, toBits, if_neg (by omega), hbiased, Nat.add_sub_cancel_left, hparts, hback]
      · exact absurd (dif_neg hlt) h

end Double

/-! ## Texts without white space -/

theorem trim_eq_self {cs : List Char} (h : ∀ c ∈ cs, isWhiteSpace c = false) : trim cs = cs := by
  have hkeep : ∀ ds : List Char, (∀ c ∈ ds, isWhiteSpace c = false) →
      ds.dropWhile isWhiteSpace = ds := by
    intro ds hds
    cases ds with
    | nil => rfl
    | cons c ds => exact List.dropWhile_cons_of_neg (by simp [hds c List.mem_cons_self])
  rw [trim, hkeep cs h, hkeep cs.reverse (by simpa using h), List.reverse_reverse]

namespace Numeral

theorem isWhiteSpace_of_mem_digitText {ds : List Nat} (hds : ∀ d ∈ ds, d < 10) {c : Char}
    (hc : c ∈ Notation.digitText ds) : isWhiteSpace c = false := by
  have hdigit : ∀ d < 10, isWhiteSpace (Notation.digitChar d) = false := by decide
  obtain ⟨d, hd, rfl⟩ := List.mem_map.mp hc
  exact hdigit d (hds d hd)

theorem isWhiteSpace_of_mem_text {n : Numeral} (hn : n.Grammatical) {c : Char} (hc : c ∈ n.text) :
    isWhiteSpace c = false := by
  obtain ⟨negative, whole, fraction, exponent⟩ := n
  simp only [text, List.mem_append] at hc
  rcases hc with hc | hc | hc | hc
  · cases negative with
    | false => simp [signText] at hc
    | true =>
      obtain rfl := List.mem_singleton.mp hc
      decide
  · exact isWhiteSpace_of_mem_digitText hn.whole hc
  · cases fraction with
    | nil => simp [fractionText] at hc
    | cons d ds =>
      rcases List.mem_cons.mp hc with rfl | hc
      · decide
      · exact isWhiteSpace_of_mem_digitText hn.fraction hc
  · cases exponent with
    | none => simp [exponentText] at hc
    | some e =>
      rw [exponentText, List.mem_cons, List.mem_cons] at hc
      rcases hc with rfl | rfl | hc
      · decide
      · split <;> decide
      · exact isWhiteSpace_of_mem_digitText (fun _ => lt_ten_of_mem_digitsOf) hc

/-! ## Numerals that are read -/

theorem splitSign_signText (negative : Bool) {rest : List Char} (h : EndsSign rest) :
    splitSign (signText negative ++ rest) = (negative, rest) := by
  cases negative with
  | true => rfl
  | false =>
    unfold splitSign
    split
    next heq => exact absurd (congrArg List.head? heq) h.1
    next heq => exact absurd (congrArg List.head? heq) h.2
    next => rfl

theorem splitFraction_fractionText {fraction : List Nat} (hdigits : ∀ d ∈ fraction, d < 10)
    {rest : List Char} (hend : EndsDigits rest) (hpoint : rest.head? ≠ some '.') :
    splitFraction (fractionText fraction ++ rest) = (fraction, rest) := by
  cases fraction with
  | nil => exact splitFraction_of_head?_ne hpoint
  | cons d ds => exact splitDigits_digitText hdigits hend

/-- A numeral that is written is read. -/
theorem ofText?_text {n : Numeral} (hn : n.Grammatical) : ofText? n.text = some n := by
  obtain ⟨negative, whole, fraction, exponent⟩ := n
  have hread := Json.splitExponent?_exponentText exponent Json.endsNumber_nil
  obtain ⟨hexponent, hpoint⟩ := Json.endsDigits_exponentText exponent Json.endsNumber_nil
  rw [List.append_nil] at hread hexponent hpoint
  have hfraction := Json.endsDigits_fractionText fraction hexponent
  have hsign : EndsSign (Notation.digitText whole ++
      (fractionText fraction ++ exponentText exponent)) :=
    ⟨Json.head?_digitText_ne (by decide) hn.ne_nil hn.whole _,
      Json.head?_digitText_ne (by decide) hn.ne_nil hn.whole _⟩
  have hne : ¬(whole = [] ∧ fraction = []) := fun h => hn.ne_nil h.1
  simp only [text, ofText?, splitSign_signText negative hsign,
    splitDigits_digitText hn.whole hfraction,
    splitFraction_fractionText hn.fraction hexponent hpoint, if_neg hne, hread]

end Numeral

namespace Double

/-- A decimal number is read as such. -/
theorem ofPageText_of_ofText? {text : String} {n : Numeral}
    (h : Numeral.ofText? (trim text.toList) = some n) : ofPageText text = n.toDouble := by
  obtain ⟨sign, mantissa, exponent, hsign, hmantissa, hexponent, heq⟩ :=
    Numeral.exists_ofText?_iff.mp ⟨n, h⟩
  have hbase : announcedBase? (trim text.toList) = none := by
    rw [heq]
    exact NumericText.announcedBase?_decimal hsign hmantissa hexponent
  have hother : ∀ cs, Numeral.ofText? cs = none → trim text.toList ≠ cs := by
    rintro cs hcs rfl
    exact nomatch hcs.symm.trans h
  have hplus := not_or.mpr ⟨hother "Infinity".toList rfl, hother "+Infinity".toList rfl⟩
  unfold ofPageText
  dsimp only
  rw [if_neg (hother [] rfl), hbase]
  dsimp only
  rw [if_neg hplus, if_neg (hother "-Infinity".toList rfl), h]

theorem ofPageText_text {n : Numeral} (hn : n.Grammatical) :
    ofPageText (String.ofList n.text) = n.toDouble := by
  refine ofPageText_of_ofText? ?_
  rw [String.toList_ofList, trim_eq_self fun _ => Numeral.isWhiteSpace_of_mem_text hn,
    Numeral.ofText?_text hn]

/-- What appears on a page for a double is read as the double, but for the
sign of zero, which does not appear. -/
theorem ofPageText_pageText (x : Double) :
    ofPageText x.pageText = if x = zero true then zero false else x := by
  cases x with
  | nan => decide +kernel
  | infinite negative => cases negative <;> decide +kernel
  | finite negative m e hc =>
    have hgrammatical : (Notation.page.numeral negative m e).Grammatical :=
      Decimal.grammatical_numeral _ _ (Notation.page.proper_decimalOf m e)
    rw [pageText, Notation.finite_eq, ofPageText_text hgrammatical,
      Notation.toDouble_numeral _ _ hc]
    by_cases hm : m = 0
    · subst hm
      obtain rfl : e = -1074 := hc.2.2.2.resolve_left (by decide)
      cases negative <;> rfl
    · have hsign : Notation.page.showsSign negative m = negative := by simp [Notation.showsSign, hm]
      have hne : finite negative m e hc ≠ zero true := by
        intro h
        cases h
        exact hm rfl
      rw [if_neg hne]
      simp only [hsign]

end Double

/-! ## The layout of a script -/

namespace Decimal

def digitChars (ds : List Nat) : List Char :=
  ds.map Nat.digitChar

/-- A digit, and the others behind a point if there are any. -/
def mantissa : List Nat → List Char
  | [] => []
  | [x] => digitChars [x]
  | x :: y :: ds => digitChars [x] ++ '.' :: digitChars (y :: ds)

/-- How a script shows the digits of a positive number with its point. -/
inductive Layout (d : Decimal) : List Char → Prop
  | whole : d.digits.length ≤ d.point → d.point ≤ 21 →
      Layout d (digitChars d.digits ++ List.replicate (d.point - d.digits.length).toNat '0')
  | pointed : 0 < d.point → d.point < d.digits.length → d.point ≤ 21 →
      Layout d (digitChars (d.digits.take d.point.toNat) ++
        '.' :: digitChars (d.digits.drop d.point.toNat))
  | fraction : -6 < d.point → d.point ≤ 0 →
      Layout d ("0.".toList ++ (List.replicate (-d.point).toNat '0' ++ digitChars d.digits))
  | large : 21 < d.point →
      Layout d (mantissa d.digits ++ 'e' :: '+' :: Nat.toDigits 10 (d.point - 1).toNat)
  | small : d.point ≤ -6 →
      Layout d (mantissa d.digits ++ 'e' :: '-' :: Nat.toDigits 10 (1 - d.point).toNat)

theorem digitText_eq {ds : List Nat} (h : ∀ x ∈ ds, x < 10) :
    Notation.digitText ds = digitChars ds := by
  have hdigit : ∀ x < 10, Notation.digitChar x = x.digitChar := by decide
  exact List.map_congr_left fun x hx => hdigit x (h x hx)

/-- A mantissa and its exponent. -/
theorem scientific_eq {d : Decimal} (h : d.Proper) :
    Notation.scientific d = mantissa d.digits ++
      'e' :: (if d.point - 1 < 0 then '-' else '+') :: Nat.toDigits 10 (d.point - 1).natAbs := by
  obtain ⟨digits, point⟩ := d
  have hdigits := h.digit
  rw [Notation.scientific, Notation.natText_eq_toDigits]
  cases digits with
  | nil => exact absurd rfl h.ne_nil
  | cons x rest =>
    have hfirst : Notation.digitText [x] = digitChars [x] :=
      digitText_eq (List.forall_mem_singleton.mpr (hdigits x List.mem_cons_self))
    cases rest with
    | nil =>
      rw [mantissa, ← hfirst]
      simp [Notation.digitText]
    | cons y rest =>
      have hrest : Notation.digitText (y :: rest) = digitChars (y :: rest) :=
        digitText_eq fun z hz => hdigits z (List.mem_cons_of_mem x hz)
      simp [mantissa, hfirst, hrest, digitChars]

/-- Where a page shows no exponent. -/
theorem page_plain_iff (point : Int) :
    Notation.page.plainFrom ≤ point ∧ point ≤ Notation.page.plainTo ↔ -6 < point ∧ point ≤ 21 :=
  Iff.rfl

/-- On a page a decimal is laid out as in a script. -/
theorem layout_decimal {d : Decimal} (h : d.Proper) : d.Layout (Notation.page.decimal d) := by
  have hdigits := digitText_eq h.digit
  have hlength := List.length_pos_iff.mpr h.ne_nil
  rw [Notation.decimal, if_congr (page_plain_iff d.point) rfl rfl, Notation.plain]
  split_ifs with hplain hpoint hwhole hzero
  · rw [hdigits]
    exact .fraction hplain.1 hpoint
  · exact absurd hzero (by decide)
  · have hzeros : d.point.toNat - d.digits.length = (d.point - d.digits.length).toNat := by omega
    rw [hdigits, List.append_nil, hzeros]
    exact .whole (by omega) hplain.2
  · rw [digitText_eq fun x hx => h.digit x (List.mem_of_mem_take hx),
      digitText_eq fun x hx => h.digit x (List.mem_of_mem_drop hx)]
    exact .pointed (by omega) (by omega) hplain.2
  · rw [scientific_eq h]
    rcases le_or_gt d.point (-6) with hsmall | hsmall
    · have habs : (d.point - 1).natAbs = (1 - d.point).toNat := by omega
      rw [if_pos (by omega), habs]
      exact .small hsmall
    · have habs : (d.point - 1).natAbs = (d.point - 1).toNat := by omega
      rw [if_neg (by omega), habs]
      exact .large (by omega)

/-- The doubles that are written without an exponent are those from the one
that is nearest to a millionth up to `10²¹`. -/
theorem IsShortest.plain_iff {m : Nat} {e : Int} {hc : Canonical m e} {d : Decimal}
    (h : d.IsShortest hc) (hm : m ≠ 0) :
    -6 < d.point ∧ d.point ≤ 21 ↔
      4722366482869645 * (2 : ℚ) ^ (-72 : Int) ≤ m * 2 ^ e ∧ (m : ℚ) * 2 ^ e < 10 ^ 21 := by
  have hmillionth : Double.ofDecimal false 1 (-6) =
      .finite false 4722366482869645 (-72) (by decide) := by decide +kernel
  have hlarge : Double.ofDecimal false 1 21 = .finite false 7629394531250000 17 (by decide) := by
    decide +kernel
  rw [Double.ofDecimal_eq_finite_iff (by decide), Nat.cast_one, one_mul] at hmillionth hlarge
  have hlow := h.pow_le_value_iff hm (by decide) (by decide) hmillionth (by norm_num)
  have hhigh := h.pow_le_value_iff hm (by decide) (by decide) hlarge (by norm_num)
  have hpoint := h.proper.lt_point_iff (h.ne_zero hm)
  have hvalue : ((7629394531250000 : ℕ) : ℚ) * 2 ^ (17 : Int) = 10 ^ (21 : Nat) := by norm_num
  rw [← hpoint, hvalue] at hhigh
  rw [← hpoint, Nat.cast_ofNat] at hlow
  rw [← hlow, ← not_lt, hhigh, not_le]

end Decimal

/-! ## All doubles -/

namespace Double

/-- The sign and the digits of a double other than zero. -/
theorem pageText_finite {m : Nat} {e : Int} {hc : Canonical m e} (negative : Bool) (hm : m ≠ 0) :
    (finite negative m e hc).pageText = (if negative then "-" else "") ++
      String.ofList (Notation.page.decimal (.shortest Notation.page.tie m e)) := by
  have hdecimal : Notation.page.decimalOf m e = .shortest Notation.page.tie m e := if_neg hm
  rw [pageText, Notation.finite_eq, Notation.numeral,
    Decimal.text_numeral _ _ (Notation.page.proper_decimalOf m e), hdecimal, String.ofList_append]
  cases negative <;> simp [Numeral.signText, Notation.showsSign, hm]

theorem ofBits_eq_zero_iff {bits : UInt64} :
    ofBits bits = zero true ↔ bits = 0x8000000000000000 := by
  constructor
  · intro h
    have hnan : ofBits bits ≠ nan := by
      rw [h]
      exact Double.noConfusion
    rw [← toBits_ofBits hnan, h]
    decide +kernel
  · rintro rfl
    decide +kernel

/-- What appears on a page for a double has its bits when it is read, except
that zero loses its sign and that there is only one form of no number. Unless
it is zero it has the digits of a shortest decimal, laid out as in a script,
and it has an exponent if it is below the double that is nearest to a
millionth, or not below `10²¹`. -/
theorem pageText_spec :
    (∀ bits : UInt64, (ofPageText (ofBits bits).pageText).toBits =
      if ofBits bits = nan then nan.toBits
      else if bits = 0x8000000000000000 then 0 else bits) ∧
    ∀ (negative : Bool) (m : Nat) (e : Int) (hc : Canonical m e), m ≠ 0 →
      ∃ (d : Decimal) (cs : List Char), d.IsShortest hc ∧ d.Layout cs ∧
        (finite negative m e hc).pageText = (if negative then "-" else "") ++ String.ofList cs ∧
        (-6 < d.point ∧ d.point ≤ 21 ↔
          4722366482869645 * (2 : ℚ) ^ (-72 : Int) ≤ m * 2 ^ e ∧ (m : ℚ) * 2 ^ e < 10 ^ 21) := by
  constructor
  · intro bits
    rw [ofPageText_pageText]
    by_cases hnan : ofBits bits = nan
    · rw [hnan]
      rfl
    · rw [if_neg hnan, if_congr ofBits_eq_zero_iff rfl rfl]
      split_ifs
      · rfl
      · exact toBits_ofBits hnan
  · intro negative m e hc hm
    have hshortest := Decimal.isShortest_shortest Notation.page.tie hc hm
    exact ⟨_, _, hshortest, Decimal.layout_decimal hshortest.proper, pageText_finite negative hm,
      hshortest.plain_iff hm⟩

/-- Minus one tenth, whose shortest decimal is `-0.1`. -/
theorem pageText_spec_tenth :
    (7205759403792794 : Nat) ≠ 0 ∧
      ∃ (d : Decimal) (cs : List Char),
        d.IsShortest (by decide : Canonical 7205759403792794 (-56)) ∧ d.Layout cs ∧
          "-0.1" = "-" ++ String.ofList cs := by
  have hne : (7205759403792794 : Nat) ≠ 0 := by decide
  have htext : (finite true 7205759403792794 (-56) (by decide)).pageText = "-0.1" := by
    decide +kernel
  obtain ⟨d, cs, hshortest, hlayout, hwritten, -⟩ := pageText_spec.2 true 7205759403792794 (-56)
    (by decide) hne
  exact ⟨hne, d, cs, hshortest, hlayout, htext.symm.trans hwritten⟩

end Double

end PagePreview
