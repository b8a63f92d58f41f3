/-
PagePreview.Proofs.Number.Numeral — which texts are numbers in a script, and
which of them are read as decimal numbers.

The texts that a script takes for numbers are given by a grammar: nothing
at all, an infinity, an integer in one of three bases, or a decimal number.
The reader of decimal numbers takes one part of a text after the other, each
as far as it goes. It accepts what the grammar calls a decimal number, and
no other text.

* `NumericText.IsNumeric` — the grammar.
* `isDigit_iff`, `splitDigits_append`, `exists_digits` — digits are read up
  to where none follows.
* `Numeral.exists_ofText?_iff` — the texts that are read as decimal numbers.
-/
import Mathlib
import PagePreview.Number.Numeral

namespace PagePreview

/-! ## The grammar -/

namespace NumericText

/-- The digits of all bases, in order. -/
def digits : List Char := "0123456789abcdef".toList

/-- One or more digits of a base. Letters may be in upper or lower case. -/
def IsDigits (base : Nat) (cs : List Char) : Prop :=
  cs ≠ [] ∧ ∀ c ∈ cs, c.toLower ∈ digits.take base

/-- The letters that announce a base, after a zero. -/
def marks : List (Char × Nat) :=
  [('x', 16), ('X', 16), ('o', 8), ('O', 8), ('b', 2), ('B', 2)]

inductive IsSign : List Char → Prop
  | absent : IsSign []
  | plus : IsSign ['+']
  | minus : IsSign ['-']

/-- Decimal digits with an optional point, which may be their end or their
start. -/
inductive IsMantissa : List Char → Prop
  | whole {ds : List Char} : IsDigits 10 ds → IsMantissa ds
  | pointed {ds fs : List Char} : IsDigits 10 ds → fs = [] ∨ IsDigits 10 fs →
      IsMantissa (ds ++ '.' :: fs)
  | fraction {fs : List Char} : IsDigits 10 fs → IsMantissa ('.' :: fs)

inductive IsExponent : List Char → Prop
  | absent : IsExponent []
  | present {e : Char} {sign ds : List Char} : e ∈ ['e', 'E'] → IsSign sign → IsDigits 10 ds →
      IsExponent (e :: (sign ++ ds))

/-- The texts that are numbers in a script, without white space around
them. -/
inductive IsNumeric : List Char → Prop
  | empty : IsNumeric []
  | infinity {sign : List Char} : IsSign sign → IsNumeric (sign ++ "Infinity".toList)
  | inBase {mark : Char} {base : Nat} {ds : List Char} : (mark, base) ∈ marks →
      IsDigits base ds → IsNumeric ('0' :: mark :: ds)
  | decimal {sign mantissa exponent : List Char} : IsSign sign → IsMantissa mantissa →
      IsExponent exponent → IsNumeric (sign ++ (mantissa ++ exponent))

end NumericText

open NumericText

/-! ## Digits -/

/-- Only the first characters have to be looked at one by one. -/
theorem char_induction {motive : Char → Prop} (ascii : ∀ n < 128, motive (Char.ofNat n))
    (other : ∀ c : Char, 128 ≤ c.toNat → motive c) (c : Char) : motive c := by
  by_cases hc : c.toNat < 128
  · rw [← Char.ofNat_toNat c]
    exact ascii _ hc
  · exact other c (not_lt.mp hc)

/-- A character beyond the first ones is in no class of them. -/
theorem classes_of_le {c : Char} (h : 128 ≤ c.toNat) :
    c.isDigit = false ∧ c.isLower = false ∧ c.isUpper = false ∧ c.toLower = c := by
  have hupper : ¬(c.val ≥ 'A'.val ∧ c.val ≤ 'Z'.val) := by
    simp [UInt32.le_iff_toNat_le]
    omega
  refine ⟨?_, ?_, decide_eq_false hupper, dif_neg hupper⟩
  · simp [Char.isDigit, UInt32.le_iff_toNat_le]
    omega
  · simp [Char.isLower, UInt32.le_iff_toNat_le]
    omega

theorem lt_of_mem_digits {c : Char} (h : c ∈ digits) : c.toNat < 128 := by
  have hall : digits.all (fun c => decide (c.toNat < 128)) := by decide +kernel
  exact of_decide_eq_true (List.all_eq_true.mp hall c h)

theorem toLower_notMem_digits {c : Char} (h : 128 ≤ c.toNat) : c.toLower ∉ digits := by
  intro hc
  have hlt := lt_of_mem_digits hc
  rw [(classes_of_le h).2.2.2] at hlt
  omega

theorem isDigit_iff (c : Char) : c.isDigit ↔ c.toLower ∈ digits.take 10 := by
  induction c using char_induction with
  | ascii n hn =>
    revert n
    decide +kernel
  | other c hc =>
    have hdigits : c.toLower ∉ digits.take 10 := fun h =>
      toLower_notMem_digits hc (List.mem_of_mem_take h)
    simp [(classes_of_le hc).1, hdigits]

/-- No digit comes first. -/
def EndsDigits (rest : List Char) : Prop :=
  ∀ c, rest.head? = some c → ¬c.isDigit

theorem endsDigits_nil : EndsDigits [] := fun _ h => nomatch h

theorem endsDigits_cons {c : Char} (hc : ¬c.isDigit) (rest : List Char) :
    EndsDigits (c :: rest) := fun _ h => by
  rwa [← Option.some.inj h]

/-- Digits are read up to where none follows. -/
theorem splitDigits_append {ds rest : List Char} (hds : ∀ c ∈ ds, c.isDigit)
    (hrest : EndsDigits rest) : splitDigits (ds ++ rest) = (ds.map digitValue, rest) := by
  have hnone : rest.takeWhile Char.isDigit = [] ∧ rest.dropWhile Char.isDigit = rest := by
    cases rest with
    | nil => exact ⟨rfl, rfl⟩
    | cons c rest => simp [hrest c rfl]
  rw [splitDigits, List.takeWhile_append_of_pos hds, List.dropWhile_append_of_pos hds, hnone.1,
    hnone.2, List.append_nil]

/-- A text begins with the digits that are read. -/
theorem exists_digits (cs : List Char) : ∃ ds, (∀ c ∈ ds, c.isDigit) ∧
    cs = ds ++ (splitDigits cs).2 ∧ (splitDigits cs).1 = ds.map digitValue ∧
    EndsDigits (splitDigits cs).2 := by
  refine ⟨cs.takeWhile Char.isDigit, fun c hc => List.mem_takeWhile_imp hc,
    List.takeWhile_append_dropWhile.symm, rfl, fun c hc => ?_⟩
  have hstop := List.head?_dropWhile_not Char.isDigit cs
  rw [show (cs.dropWhile Char.isDigit).head? = some c from hc] at hstop
  simpa using hstop

theorem isDigits_ten_iff {ds : List Char} : IsDigits 10 ds ↔ ds ≠ [] ∧ ∀ c ∈ ds, c.isDigit := by
  simp only [IsDigits, isDigit_iff]

/-! ## Decimal numbers -/

/-- No sign comes first. -/
def EndsSign (rest : List Char) : Prop :=
  rest.head? ≠ some '-' ∧ rest.head? ≠ some '+'

theorem splitSign_append {sign rest : List Char} (h : IsSign sign) (hrest : EndsSign rest) :
    (splitSign (sign ++ rest)).2 = rest := by
  cases h with
  | absent =>
    rw [List.nil_append]
    unfold splitSign
    split
    · exact absurd rfl hrest.1
    · exact absurd rfl hrest.2
    · rfl
  | plus => rfl
  | minus => rfl

/-- A text begins with the sign that is read. -/
theorem exists_sign (cs : List Char) : ∃ sign, IsSign sign ∧ cs = sign ++ (splitSign cs).2 := by
  unfold splitSign
  split
  · exact ⟨['-'], .minus, rfl⟩
  · exact ⟨['+'], .plus, rfl⟩
  · exact ⟨[], .absent, rfl⟩

theorem endsSign_of_isDigit {c : Char} (hc : c.isDigit) (rest : List Char) :
    EndsSign (c :: rest) := by
  constructor <;>
  · intro h
    obtain rfl := Option.some.inj h
    exact absurd hc (by decide)

/-- An exponent is read to its end, which is the end of the text. -/
theorem exists_splitExponent?_iff {cs : List Char} :
    (∃ e, splitExponent? cs = some (e, [])) ↔ IsExponent cs := by
  constructor
  · rintro ⟨e, h⟩
    cases cs with
    | nil => exact .absent
    | cons c rest =>
      obtain ⟨sign, hsign, hrest⟩ := exists_sign rest
      obtain ⟨ds, hds, hdigits, hread, -⟩ := exists_digits (splitSign rest).2
      simp only [splitExponent?] at h
      by_cases hmark : c = 'e' ∨ c = 'E'
      · have hne : (splitDigits (splitSign rest).2).1 ≠ [] := by
          intro hnil
          rw [if_pos hmark, if_pos hnil] at h
          exact nomatch h
        rw [if_pos hmark, if_neg hne, Option.some.injEq, Prod.mk.injEq] at h
        rw [hread, Ne, List.map_eq_nil_iff] at hne
        rw [h.2, List.append_nil] at hdigits
        rw [hrest, hdigits]
        exact .present (by simpa using hmark) hsign (isDigits_ten_iff.mpr ⟨hne, hds⟩)
      · rw [if_neg hmark, Option.some.injEq, Prod.mk.injEq] at h
        exact absurd h.2 (List.cons_ne_nil c rest)
  · intro h
    cases h with
    | absent => exact ⟨none, rfl⟩
    | @present e sign ds he hsign hds =>
      obtain ⟨hne, hall⟩ := isDigits_ten_iff.mp hds
      obtain ⟨d, rest, rfl⟩ := List.exists_cons_of_ne_nil hne
      have hstart := endsSign_of_isDigit (hall d List.mem_cons_self) rest
      have hread := splitDigits_append hall endsDigits_nil
      rw [List.append_nil] at hread
      have hmark : e = 'e' ∨ e = 'E' := by simpa using he
      simp [splitExponent?, hmark, splitSign_append hsign hstart, hread]

/-! ### Whole numbers and fractions -/

namespace Numeral

/-- The digits around a point, if there is one among the digits and there is
at least one digit, are a mantissa. -/
theorem exists_mantissa {cs : List Char}
    (h : ¬((splitDigits cs).1 = [] ∧ (splitFraction (splitDigits cs).2).1 = [])) :
    ∃ mantissa, IsMantissa mantissa ∧ cs = mantissa ++ (splitFraction (splitDigits cs).2).2 := by
  obtain ⟨ds, hds, hcs, hread, -⟩ := exists_digits cs
  generalize (splitDigits cs).1 = whole at h hread
  generalize (splitDigits cs).2 = after at h hcs
  unfold splitFraction at h ⊢
  split at h
  next rest =>
    obtain ⟨fs, hfs, hrest, hfraction, -⟩ := exists_digits rest
    rw [hread, hfraction, List.map_eq_nil_iff, List.map_eq_nil_iff] at h
    by_cases hnil : ds = []
    · have hne : fs ≠ [] := fun hfsnil => h ⟨hnil, hfsnil⟩
      refine ⟨'.' :: fs, .fraction (isDigits_ten_iff.mpr ⟨hne, hfs⟩), ?_⟩
      rw [hcs, hnil, List.nil_append, List.cons_append, ← hrest]
    · refine ⟨ds ++ '.' :: fs, .pointed (isDigits_ten_iff.mpr ⟨hnil, hds⟩) ?_, ?_⟩
      · by_cases hfsnil : fs = []
        · exact .inl hfsnil
        · exact .inr (isDigits_ten_iff.mpr ⟨hfsnil, hfs⟩)
      · rw [hcs, List.append_assoc, List.cons_append, ← hrest]
  next =>
    have hne : ds ≠ [] := by
      intro hnil
      refine h ⟨?_, rfl⟩
      rw [hread, hnil, List.map_nil]
    exact ⟨ds, .whole (isDigits_ten_iff.mpr ⟨hne, hds⟩), hcs⟩

/-- What may follow a mantissa does not go on with it. -/
theorem endsMantissa_of_isExponent {cs : List Char} (h : IsExponent cs) :
    EndsDigits cs ∧ cs.head? ≠ some '.' := by
  cases h with
  | absent => exact ⟨endsDigits_nil, by simp⟩
  | present he _ _ =>
    simp only [List.mem_cons, List.not_mem_nil, or_false] at he
    rcases he with rfl | rfl
    · exact ⟨endsDigits_cons (by decide) _, by simp⟩
    · exact ⟨endsDigits_cons (by decide) _, by simp⟩

theorem splitFraction_of_head?_ne {cs : List Char} (h : cs.head? ≠ some '.') :
    splitFraction cs = ([], cs) := by
  unfold splitFraction
  split
  · exact absurd rfl h
  · rfl

/-- A mantissa is read to its end. -/
theorem split_mantissa {mantissa rest : List Char} (h : IsMantissa mantissa)
    (hrest : EndsDigits rest) (hpoint : rest.head? ≠ some '.') :
    (splitFraction (splitDigits (mantissa ++ rest)).2).2 = rest ∧
      ¬((splitDigits (mantissa ++ rest)).1 = [] ∧
        (splitFraction (splitDigits (mantissa ++ rest)).2).1 = []) := by
  cases h with
  | whole hds =>
    obtain ⟨hne, hall⟩ := isDigits_ten_iff.mp hds
    rw [splitDigits_append hall hrest, splitFraction_of_head?_ne hpoint]
    simp [hne]
  | @pointed ds fs hds hfs =>
    obtain ⟨hne, hall⟩ := isDigits_ten_iff.mp hds
    have hfsall : ∀ c ∈ fs, c.isDigit := by
      rcases hfs with rfl | hfs
      · simp
      · exact (isDigits_ten_iff.mp hfs).2
    have hend : EndsDigits ('.' :: (fs ++ rest)) := endsDigits_cons (by decide) _
    rw [List.append_assoc, List.cons_append, splitDigits_append hall hend, splitFraction,
      splitDigits_append hfsall hrest]
    simp [hne]
  | @fraction fs hfs =>
    obtain ⟨hne, hall⟩ := isDigits_ten_iff.mp hfs
    have hend : EndsDigits ('.' :: (fs ++ rest)) := endsDigits_cons (by decide) _
    have hread : splitDigits ('.' :: (fs ++ rest)) = ([], '.' :: (fs ++ rest)) :=
      splitDigits_append (List.forall_mem_nil _) hend
    rw [List.cons_append, hread, splitFraction, splitDigits_append hall hrest]
    simp [hne]

theorem endsSign_of_isMantissa {mantissa : List Char} (h : IsMantissa mantissa)
    (rest : List Char) : EndsSign (mantissa ++ rest) := by
  cases h with
  | whole hds =>
    obtain ⟨hne, hall⟩ := isDigits_ten_iff.mp hds
    obtain ⟨d, ds, rfl⟩ := List.exists_cons_of_ne_nil hne
    exact endsSign_of_isDigit (hall d List.mem_cons_self) _
  | pointed hds _ =>
    obtain ⟨hne, hall⟩ := isDigits_ten_iff.mp hds
    obtain ⟨d, ds, rfl⟩ := List.exists_cons_of_ne_nil hne
    exact endsSign_of_isDigit (hall d List.mem_cons_self) _
  | fraction _ => exact ⟨by simp, by simp⟩

/-- The texts that are read as decimal numbers. -/
theorem exists_ofText?_iff {cs : List Char} :
    (∃ n, ofText? cs = some n) ↔ ∃ sign mantissa exponent, IsSign sign ∧ IsMantissa mantissa ∧
      IsExponent exponent ∧ cs = sign ++ (mantissa ++ exponent) := by
  constructor
  · rintro ⟨n, h⟩
    obtain ⟨sign, hsign, hcs⟩ := exists_sign cs
    simp only [ofText?] at h
    split at h
    next => exact nomatch h
    next hdigits =>
      obtain ⟨mantissa, hmantissa, hunsigned⟩ := exists_mantissa hdigits
      split at h
      next e he =>
        exact ⟨sign, mantissa, _, hsign, hmantissa, exists_splitExponent?_iff.mp ⟨e, he⟩,
          hcs.trans (congrArg (sign ++ ·) hunsigned)⟩
      next => exact nomatch h
  · rintro ⟨sign, mantissa, exponent, hsign, hmantissa, hexponent, rfl⟩
    obtain ⟨hrest, hpoint⟩ := endsMantissa_of_isExponent hexponent
    obtain ⟨hafter, hdigits⟩ := split_mantissa hmantissa hrest hpoint
    obtain ⟨e, he⟩ := exists_splitExponent?_iff.mpr hexponent
    have hunsigned := splitSign_append hsign (endsSign_of_isMantissa hmantissa exponent)
    simp only [ofText?, hunsigned, hafter, he, if_neg hdigits]
    exact ⟨_, rfl⟩

end Numeral

end PagePreview
