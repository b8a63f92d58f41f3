/-
PagePreview.Proofs.Json.Number — a number that is written is read.

A number ends where no digit, point or exponent follows, so it can be read
with anything behind it that does not go on with it. An integer is written
without a point and without an exponent and a double with one of them,
which keeps the two apart.

* `Numeral.number?` — the number that a numeral stands for.
* `splitNumber?_text` — a numeral, with anything behind it.
* `Number.Readable` — the numbers that a JSON text can hold.
* `splitNumber?_write` — a number, with anything behind it.
-/
import PagePreview.Json.Word
import PagePreview.Json.Writer
import PagePreview.Proofs.Number.Notation
import PagePreview.Proofs.Number.Numeral

namespace PagePreview

/-! ## Digits -/

theorem digitChar_lt_ten : ∀ d < 10, (Notation.digitChar d).isDigit ∧
    digitValue (Notation.digitChar d) = d ∧ (Notation.digitChar d = '0' → d = 0) := by
  decide

/-- Digits are read up to where none follows. -/
theorem splitDigits_digitText {ds : List Nat} {rest : List Char} (hds : ∀ d ∈ ds, d < 10)
    (hrest : EndsDigits rest) : splitDigits (Notation.digitText ds ++ rest) = (ds, rest) := by
  have hdigits : ∀ c ∈ Notation.digitText ds, c.isDigit := by
    intro c hc
    obtain ⟨d, hd, rfl⟩ := List.mem_map.mp hc
    exact (digitChar_lt_ten d (hds d hd)).1
  have hvalues : (Notation.digitText ds).map digitValue = ds := by
    rw [Notation.digitText, List.map_map]
    refine (List.map_congr_left fun d hd => ?_).trans (List.map_id' ds)
    exact (digitChar_lt_ten d (hds d hd)).2.1
  rw [splitDigits_append hdigits hrest, hvalues]

theorem splitDigits_natText (n : Nat) {rest : List Char} (hrest : EndsDigits rest) :
    splitDigits (Notation.natText n ++ rest) = (digitsOf n, rest) :=
  splitDigits_digitText (fun _ => lt_ten_of_mem_digitsOf) hrest

namespace Json

/-! ## Numerals -/

/-- Nothing comes first that goes on with a number. -/
def EndsNumber (rest : List Char) : Prop :=
  ∀ c, rest.head? = some c → ¬c.isDigit ∧ c ≠ '.' ∧ c ≠ 'e' ∧ c ≠ 'E'

theorem endsNumber_nil : EndsNumber [] := fun _ hc => nomatch hc

theorem EndsNumber.endsDigits {rest : List Char} (h : EndsNumber rest) : EndsDigits rest :=
  fun c hc => (h c hc).1

theorem splitExponent?_exponentText (exponent : Option Int) {rest : List Char}
    (hrest : EndsNumber rest) :
    splitExponent? (Numeral.exponentText exponent ++ rest) = some (exponent, rest) := by
  cases exponent with
  | none =>
    cases rest with
    | nil => rfl
    | cons c rest =>
      obtain ⟨-, -, he, hE⟩ := hrest c rfl
      exact if_neg (not_or.mpr ⟨he, hE⟩)
  | some e =>
    have hdigits := splitDigits_natText e.natAbs hrest.endsDigits
    have hne := digitsOf_ne_nil e.natAbs
    by_cases hsign : e < 0
    · simp [Numeral.exponentText, hsign, splitExponent?, splitSign, hdigits, hne,
        ofDigits_digitsOf, abs_of_neg hsign]
    · simp [Numeral.exponentText, hsign, splitExponent?, splitSign, hdigits, hne,
        ofDigits_digitsOf, not_lt.mp hsign]

theorem splitPoint?_fractionText {fraction : List Nat} (hdigits : ∀ d ∈ fraction, d < 10)
    {rest : List Char} (hend : EndsDigits rest) (hpoint : rest.head? ≠ some '.') :
    splitPoint? (Numeral.fractionText fraction ++ rest) =
      some (if fraction = [] then none else some fraction, rest) := by
  cases fraction with
  | nil =>
    cases rest with
    | nil => rfl
    | cons c rest =>
      have hc : c ≠ '.' := fun h => hpoint (by rw [h]; rfl)
      simp [Numeral.fractionText, splitPoint?, hc]
  | cons d ds =>
    simp [Numeral.fractionText, splitPoint?, splitDigits_digitText hdigits hend]

theorem splitWhole?_digitText {whole : List Nat} (hne : whole ≠ []) (hdigits : ∀ d ∈ whole, d < 10)
    (hhead : whole.head? = some 0 → whole = [0]) {rest : List Char} (hend : EndsDigits rest) :
    splitWhole? (Notation.digitText whole ++ rest) = some (whole, rest) := by
  obtain ⟨d, ds, rfl⟩ := List.exists_cons_of_ne_nil hne
  by_cases hd : d = 0
  · subst hd
    rw [hhead rfl]
    rfl
  · have hchar : Notation.digitChar d ≠ '0' :=
      mt (digitChar_lt_ten d (hdigits d List.mem_cons_self)).2.2 hd
    have hsplit := splitDigits_digitText hdigits hend
    rw [splitWhole?]
    · rw [hsplit]
      simp
    · intro rest' h
      exact hchar (List.cons.inj h).1

end Json

/-- The number that a numeral stands for in a JSON text, if it is not beyond
all doubles. -/
def Numeral.number? (n : Numeral) : Option Json.Number :=
  if n.fraction = [] ∧ n.exponent = none then Json.Number.ofWhole? n.negative n.whole
  else Json.Number.ofFinite? n.toDouble

namespace Json

theorem splitMinus_signText (negative : Bool) {rest : List Char} (h : rest.head? ≠ some '-') :
    splitMinus (Numeral.signText negative ++ rest) = (negative, rest) := by
  cases negative with
  | true => rfl
  | false =>
    cases rest with
    | nil => rfl
    | cons c rest =>
      have hc : c ≠ '-' := fun heq => h (by rw [heq]; rfl)
      simp [Numeral.signText, splitMinus, hc]

theorem endsDigits_exponentText (exponent : Option Int) {rest : List Char}
    (hrest : EndsNumber rest) : EndsDigits (Numeral.exponentText exponent ++ rest) ∧
      (Numeral.exponentText exponent ++ rest).head? ≠ some '.' := by
  cases exponent with
  | none => exact ⟨hrest.endsDigits, fun h => (hrest '.' h).2.1 rfl⟩
  | some e => exact ⟨endsDigits_cons (by decide) _, by simp [Numeral.exponentText]⟩

theorem endsDigits_fractionText (fraction : List Nat) {rest : List Char}
    (hrest : EndsDigits rest) : EndsDigits (Numeral.fractionText fraction ++ rest) := by
  cases fraction with
  | nil => exact hrest
  | cons d ds => exact endsDigits_cons (by decide) _

theorem head?_digitText_ne {c : Char} (hc : ¬c.isDigit) {ds : List Nat} (hne : ds ≠ [])
    (hdigits : ∀ d ∈ ds, d < 10) (rest : List Char) :
    (Notation.digitText ds ++ rest).head? ≠ some c := by
  obtain ⟨d, ds, rfl⟩ := List.exists_cons_of_ne_nil hne
  intro h
  have hdigit := (digitChar_lt_ten d (hdigits d List.mem_cons_self)).1
  rw [← Option.some.inj h] at hc
  exact hc hdigit

/-- A numeral is read, with anything behind it that does not go on with it. -/
theorem splitNumber?_text {n : Numeral} (hn : n.Grammatical) {rest : List Char}
    (hrest : EndsNumber rest) : splitNumber? (n.text ++ rest) = some (n.number?, rest) := by
  obtain ⟨negative, whole, fraction, exponent⟩ := n
  obtain ⟨hexponent, hpoint⟩ := endsDigits_exponentText exponent hrest
  have hfraction := endsDigits_fractionText fraction hexponent
  have hsign := splitMinus_signText negative (head?_digitText_ne (c := '-') (by decide) hn.ne_nil
    hn.whole (Numeral.fractionText fraction ++ (Numeral.exponentText exponent ++ rest)))
  rw [Numeral.text, splitNumber?]
  simp only [List.append_assoc, hsign, splitWhole?_digitText hn.ne_nil hn.whole hn.head hfraction,
    splitPoint?_fractionText hn.fraction hexponent hpoint,
    splitExponent?_exponentText exponent hrest, Option.bind_eq_bind, Option.bind_some]
  cases fraction <;> cases exponent <;> simp [Numeral.number?]

/-! ## Numbers -/

/-- The numbers that a JSON text can hold: integers of sixty-four bits, with
or without a sign, and finite doubles. -/
def Number.Readable : Number → Prop
  | integer n => -Nat.pow 2 63 ≤ n ∧ n < Nat.pow 2 64
  | double x => x.isFinite

/-- The numeral that is written for a number. -/
def Number.numeral : Number → Numeral
  | integer n => ⟨decide (n < 0), digitsOf n.natAbs, [], none⟩
  | double (.finite negative m e _) => Notation.json.numeral negative m e
  | double _ => ⟨false, [0], [], none⟩

theorem Number.write_eq : ∀ {n : Number}, n.Readable → n.write = n.numeral.text
  | integer n, _ => by
      rw [write, numeral, Numeral.text, Notation.intText]
      by_cases hsign : n < 0
      · simp [hsign, Numeral.signText, Numeral.fractionText, Numeral.exponentText,
          Notation.natText]
      · simp [hsign, Numeral.signText, Numeral.fractionText, Numeral.exponentText,
          Notation.natText]
  | double (.finite negative m e _), _ => Notation.json.finite_eq negative m e

theorem Number.grammatical_numeral : ∀ {n : Number}, n.Readable → n.numeral.Grammatical
  | integer n, _ => by
      refine ⟨digitsOf_ne_nil _, fun _ => lt_ten_of_mem_digitsOf, by simp [numeral], fun h => ?_⟩
      have hzero : n.natAbs = 0 := by
        by_contra hne
        exact head?_digitsOf_ne hne h
      simp [numeral, hzero, digitsOf]
  | double (.finite _ m e _), _ =>
      Decimal.grammatical_numeral _ _ (Notation.json.proper_decimalOf m e)

theorem Number.number?_numeral : ∀ {n : Number}, n.Readable → n.numeral.number? = some n
  | integer n, ⟨hleast, hgreatest⟩ => by
      rw [numeral, Numeral.number?, if_pos ⟨rfl, rfl⟩, ofWhole?]
      simp only [ofDigits_digitsOf]
      by_cases hsign : n < 0
      · have hzero : (n.natAbs : Int) ≠ 0 := by omega
        have hvalue : -(n.natAbs : Int) = n := by omega
        rw [decide_eq_true hsign, if_pos rfl, if_neg hzero, if_pos (by omega), hvalue]
      · have hvalue : (n.natAbs : Int) = n := by omega
        rw [decide_eq_false hsign, if_neg (by decide), if_pos (by omega), hvalue]
  | double (.finite negative m e hc), _ => by
      have hpointed := Decimal.numeral_pointed (rfl : Notation.json.pointZero = true)
        (Notation.json.showsSign negative m) (Notation.json.proper_decimalOf m e)
      have hsign : Notation.json.showsSign negative m = negative := by
        simp [Notation.showsSign, Notation.json]
      have hvalue := Notation.json.toDouble_numeral negative hc
      rw [hsign] at hvalue
      rw [numeral, Numeral.number?, if_neg (by rwa [not_and_or]), hvalue]
      rfl

/-- A number that is written is read, with anything behind it that does not
go on with it. -/
theorem splitNumber?_write {n : Number} (h : n.Readable) {rest : List Char}
    (hrest : EndsNumber rest) : splitNumber? (n.write ++ rest) = some (some n, rest) := by
  rw [Number.write_eq h, splitNumber?_text (Number.grammatical_numeral h) hrest,
    Number.number?_numeral h]

theorem Number.readable_of_ofFinite? {x : Double} {n : Number} (h : ofFinite? x = some n) :
    n.Readable := by
  unfold ofFinite? at h
  split_ifs at h with hfinite
  obtain rfl := Option.some.inj h
  exact hfinite

theorem Number.readable_of_ofWhole? {negative : Bool} {ds : List Nat} {n : Number}
    (h : ofWhole? negative ds = some n) : n.Readable := by
  unfold ofWhole? at h
  simp only at h
  split_ifs at h with hsign hzero hfits hfits
  · obtain rfl := Option.some.inj h
    rfl
  · obtain rfl := Option.some.inj h
    have hpow : (Nat.pow 2 64 : Int) = 18446744073709551616 := by decide
    exact ⟨by omega, by omega⟩
  · exact readable_of_ofFinite? h
  · obtain rfl := Option.some.inj h
    exact ⟨by omega, hfits⟩
  · exact readable_of_ofFinite? h

/-- What is read is a number that a text can hold. -/
theorem Number.readable_of_splitNumber? {cs after : List Char} {n : Number}
    (h : splitNumber? cs = some (some n, after)) : n.Readable := by
  unfold splitNumber? at h
  simp only [Option.bind_eq_bind, Option.bind_eq_some_iff, Option.some.injEq, Prod.mk.injEq] at h
  obtain ⟨_, _, _, _, _, _, hvalue, _⟩ := h
  split_ifs at hvalue
  · exact readable_of_ofWhole? hvalue
  · exact readable_of_ofFinite? hvalue

end Json

end PagePreview
