/-
PagePreview.Proofs.Number.PageNumber — which values of the backend are
numbers.

A value is read as a number by several means, tried one after the other. For
blank texts, infinities and decimal numbers they accept what a script does.
Of the integers in a base they accept too few, as there are sixty-four bits
for them, and too many, as a plus sign may stand between the base and the
digits.

* `exists_wordInBase?_iff` — the texts that are read as integers in a base.
* `NumericText.isNumeric_announced_iff`,
  `NumericText.isNumeric_iff_of_announcedBase?` — the grammar, by how a text
  begins.
* `Double.ofPageText_ne_nan_iff` — the texts that are read as numbers, and
  where that agrees with a script.
-/
import PagePreview.Proofs.Number.Numeral

namespace PagePreview

namespace NumericText

/-- The number that digits of a base stand for. -/
def valueIn (base : Nat) (cs : List Char) : Nat :=
  cs.foldl (fun n c => base * n + digits.idxOf c.toLower) 0

/-- An integer in a base that does not fit into sixty-four bits. -/
def IsOverlong (cs : List Char) : Prop :=
  ∃ mark base ds, (mark, base) ∈ marks ∧ IsDigits base ds ∧ cs = '0' :: mark :: ds ∧
    2 ^ 64 ≤ valueIn base ds

/-- An integer in a base with a plus sign before its digits, and fitting
into sixty-four bits. -/
def IsPlusMarked (cs : List Char) : Prop :=
  ∃ mark base ds, (mark, base) ∈ marks ∧ IsDigits base ds ∧ cs = '0' :: mark :: '+' :: ds ∧
    valueIn base ds < 2 ^ 64

end NumericText

open NumericText

/-! ## Integers in a base -/

/-- The digits of a base have their places among all digits as values. -/
theorem digitInBase?_eq {mark : Char} {base : Nat} (hbase : (mark, base) ∈ marks) (c : Char) :
    digitInBase? base c =
      if c.toLower ∈ digits.take base then some (digits.idxOf c.toLower) else none := by
  induction c using char_induction with
  | ascii n hn =>
    have hascii : ∀ m ∈ marks, ∀ n < 128, digitInBase? m.2 (Char.ofNat n) =
        if (Char.ofNat n).toLower ∈ digits.take m.2 then
          some (digits.idxOf (Char.ofNat n).toLower)
        else none := by
      decide +kernel
    exact hascii _ hbase n hn
  | other c hc =>
    obtain ⟨hdigit, hlower, hupper, -⟩ := classes_of_le hc
    rw [if_neg fun h => toLower_notMem_digits hc (List.mem_of_mem_take h)]
    simp [digitInBase?, hdigit, hlower, hupper]

/-- The values of digits of a base, if all of them are. -/
theorem mapM_digitInBase? {mark : Char} {base : Nat} (hbase : (mark, base) ∈ marks)
    (ds : List Char) :
    ds.mapM (digitInBase? base) =
      if ∀ c ∈ ds, c.toLower ∈ digits.take base then some (ds.map fun c => digits.idxOf c.toLower)
      else none := by
  induction ds with
  | nil => simp
  | cons c ds ih =>
    have hcons : (∀ d ∈ c :: ds, d.toLower ∈ digits.take base) ↔
        c.toLower ∈ digits.take base ∧ ∀ d ∈ ds, d.toLower ∈ digits.take base :=
      List.forall_mem_cons
    rw [List.mapM_cons, digitInBase?_eq hbase, ih]
    by_cases hc : c.toLower ∈ digits.take base
    · by_cases hds : ∀ c ∈ ds, c.toLower ∈ digits.take base
      · rw [if_pos hc, if_pos hds, if_pos (hcons.mpr ⟨hc, hds⟩)]
        rfl
      · rw [if_pos hc, if_neg hds, if_neg fun h => hds (hcons.mp h).2]
        rfl
    · rw [if_neg hc, if_neg fun h => hc (hcons.mp h).1]
      rfl

theorem plus_notMem_digits : '+'.toLower ∉ digits := by
  decide +kernel

/-- An integer in a base is read if it fits into sixty-four bits, with or
without a plus sign. -/
theorem exists_wordInBase?_iff {mark : Char} {base : Nat} (hbase : (mark, base) ∈ marks)
    {cs : List Char} :
    (∃ n, wordInBase? base cs = some n) ↔
      ∃ ds, (cs = ds ∨ cs = '+' :: ds) ∧ IsDigits base ds ∧ valueIn base ds < 2 ^ 64 := by
  have hread (ds : List Char) : (∃ n, (if ds = [] then none else
      ((ds.mapM (digitInBase? base)).map (·.foldl (fun n d => base * n + d) 0)).filter
        (· < Nat.pow 2 64)) = some n) ↔ IsDigits base ds ∧ valueIn base ds < 2 ^ 64 := by
    rw [mapM_digitInBase? hbase, IsDigits]
    by_cases hnil : ds = []
    · simp [hnil]
    · by_cases hds : ∀ c ∈ ds, c.toLower ∈ digits.take base
      · rw [if_neg hnil, if_pos hds, Option.map_some, List.foldl_map, ← valueIn,
          Option.filter_some]
        simpa [hnil] using fun _ => hds
      · rw [if_neg hnil, if_neg hds]
        simp [hds]
  simp only [wordInBase?]
  split
  next rest =>
    rw [hread]
    constructor
    · intro h
      exact ⟨rest, .inr rfl, h⟩
    · rintro ⟨ds, rfl | heq, h⟩
      · exact absurd (List.mem_of_mem_take (h.1.2 '+' List.mem_cons_self)) plus_notMem_digits
      · rwa [(List.cons.inj heq).2]
  next hplus =>
    rw [hread]
    constructor
    · intro h
      exact ⟨cs, .inl rfl, h⟩
    · rintro ⟨ds, rfl | rfl, h⟩
      · exact h
      · exact absurd rfl (hplus ds)

theorem announcedBase?_eq_some_iff {cs ds : List Char} {base : Nat} :
    announcedBase? cs = some (base, ds) ↔
      ∃ mark, (mark, base) ∈ marks ∧ cs = '0' :: mark :: ds := by
  unfold announcedBase?
  constructor
  · intro h
    split at h
    next mark rest =>
      refine ⟨mark, ?_⟩
      split_ifs at h with hx ho hb <;> obtain ⟨rfl, rfl⟩ := Prod.mk.inj (Option.some.inj h)
      · rcases hx with rfl | rfl <;> simp [marks]
      · rcases ho with rfl | rfl <;> simp [marks]
      · rcases hb with rfl | rfl <;> simp [marks]
    next => exact nomatch h
  · rintro ⟨mark, hmark, rfl⟩
    simp only [marks, List.mem_cons, Prod.mk.injEq, List.not_mem_nil, or_false] at hmark
    rcases hmark with ⟨rfl, rfl⟩ | ⟨rfl, rfl⟩ | ⟨rfl, rfl⟩ | ⟨rfl, rfl⟩ | ⟨rfl, rfl⟩ | ⟨rfl, rfl⟩ <;>
      rfl

/-! ## Numbers in a base and other numbers -/

namespace NumericText

/-- A letter that announces a base occurs in no decimal number. -/
theorem mark_notMem_decimal {m : Char × Nat} (hm : m ∈ marks) {sign mantissa exponent : List Char}
    (hsign : IsSign sign) (hmantissa : IsMantissa mantissa) (hexponent : IsExponent exponent) :
    m.1 ∉ sign ++ (mantissa ++ exponent) := by
  have hmark : ¬m.1.isDigit ∧ m.1 ∉ ['+', '-', '.', 'e', 'E'] := by
    revert m
    decide
  have hdigits : ∀ ds, IsDigits 10 ds → m.1 ∉ ds := by
    intro ds hds hmem
    exact hmark.1 ((isDigits_ten_iff.mp hds).2 _ hmem)
  have hnot : ∀ c ∈ ['+', '-', '.', 'e', 'E'], m.1 ≠ c := by
    rintro c hc rfl
    exact hmark.2 hc
  have hsigns : ∀ sign, IsSign sign → m.1 ∉ sign := by
    intro sign hsign
    cases hsign <;> simp [hnot]
  have hmantissas : m.1 ∉ mantissa := by
    cases hmantissa with
    | whole hds => exact hdigits _ hds
    | @pointed ds fs hds hfs =>
      have hfs' : m.1 ∉ fs := by
        rcases hfs with rfl | hfs
        · simp
        · exact hdigits _ hfs
      simp [hdigits _ hds, hfs', hnot]
    | fraction hfs => simp [hdigits _ hfs, hnot]
  have hexponents : m.1 ∉ exponent := by
    cases hexponent with
    | absent => simp
    | @present e sign ds he hsign hds =>
      have hmark' : m.1 ≠ e := by
        refine hnot e ?_
        simp only [List.mem_cons, List.not_mem_nil, or_false] at he ⊢
        tauto
      simp [hmark', hsigns _ hsign, hdigits _ hds]
  simp [hsigns _ hsign, hmantissas, hexponents]

theorem announcedBase?_decimal {sign mantissa exponent : List Char} (hsign : IsSign sign)
    (hmantissa : IsMantissa mantissa) (hexponent : IsExponent exponent) :
    announcedBase? (sign ++ (mantissa ++ exponent)) = none := by
  refine Option.eq_none_iff_forall_ne_some.mpr fun ⟨base, ds⟩ h => ?_
  obtain ⟨mark, hmark, heq⟩ := announcedBase?_eq_some_iff.mp h
  refine mark_notMem_decimal hmark hsign hmantissa hexponent ?_
  simp [heq]

theorem announcedBase?_infinity {sign : List Char} (hsign : IsSign sign) :
    announcedBase? (sign ++ "Infinity".toList) = none := by
  cases hsign <;> rfl

theorem base_unique {mark : Char} {base base' : Nat} (h : (mark, base) ∈ marks)
    (h' : (mark, base') ∈ marks) : base = base' := by
  have hall : ∀ m ∈ marks, ∀ m' ∈ marks, m.1 = m'.1 → m.2 = m'.2 := by decide
  exact hall _ h _ h' rfl

/-- A text that announces a base is a number if digits of that base follow. -/
theorem isNumeric_announced_iff {mark : Char} {base : Nat} (hmark : (mark, base) ∈ marks)
    {rest : List Char} : IsNumeric ('0' :: mark :: rest) ↔ IsDigits base rest := by
  constructor
  · intro h
    have hannounced : announcedBase? ('0' :: mark :: rest) = some (base, rest) :=
      announcedBase?_eq_some_iff.mpr ⟨mark, hmark, rfl⟩
    generalize hcs : '0' :: mark :: rest = cs at h hannounced
    cases h with
    | empty => exact nomatch hcs
    | infinity hsign => exact nomatch (announcedBase?_infinity hsign).symm.trans hannounced
    | @inBase mark' base' ds hmark' hds =>
      obtain ⟨rfl, rfl⟩ := List.cons.inj (List.cons.inj hcs).2
      rwa [base_unique hmark hmark']
    | decimal hsign hmantissa hexponent =>
      exact nomatch (announcedBase?_decimal hsign hmantissa hexponent).symm.trans hannounced
  · exact .inBase hmark

theorem isOverlong_announced_iff {mark : Char} {base : Nat} (hmark : (mark, base) ∈ marks)
    {rest : List Char} :
    IsOverlong ('0' :: mark :: rest) ↔ IsDigits base rest ∧ 2 ^ 64 ≤ valueIn base rest := by
  constructor
  · rintro ⟨mark', base', ds, hmark', hds, heq, hvalue⟩
    obtain ⟨rfl, rfl⟩ := List.cons.inj (List.cons.inj heq).2
    obtain rfl := base_unique hmark hmark'
    exact ⟨hds, hvalue⟩
  · rintro ⟨hds, hvalue⟩
    exact ⟨mark, base, rest, hmark, hds, rfl, hvalue⟩

theorem isPlusMarked_announced_iff {mark : Char} {base : Nat} (hmark : (mark, base) ∈ marks)
    {rest : List Char} : IsPlusMarked ('0' :: mark :: rest) ↔
      ∃ ds, rest = '+' :: ds ∧ IsDigits base ds ∧ valueIn base ds < 2 ^ 64 := by
  constructor
  · rintro ⟨mark', base', ds, hmark', hds, heq, hvalue⟩
    obtain ⟨rfl, rfl⟩ := List.cons.inj (List.cons.inj heq).2
    obtain rfl := base_unique hmark hmark'
    exact ⟨ds, rfl, hds, hvalue⟩
  · rintro ⟨ds, rfl, hds, hvalue⟩
    exact ⟨mark, base, ds, hmark, hds, rfl, hvalue⟩

/-- A text that announces no base is a number if it is empty, an infinity or
a decimal number. -/
theorem isNumeric_iff_of_announcedBase? {cs : List Char} (h : announcedBase? cs = none) :
    IsNumeric cs ↔ cs = [] ∨ (∃ sign, IsSign sign ∧ cs = sign ++ "Infinity".toList) ∨
      ∃ n, Numeral.ofText? cs = some n := by
  rw [Numeral.exists_ofText?_iff]
  constructor
  · intro hcs
    cases hcs with
    | empty => exact .inl rfl
    | infinity hsign => exact .inr (.inl ⟨_, hsign, rfl⟩)
    | inBase hmark _ => exact nomatch (announcedBase?_eq_some_iff.mpr ⟨_, hmark, rfl⟩).symm.trans h
    | decimal hsign hmantissa hexponent =>
      exact .inr (.inr ⟨_, _, _, hsign, hmantissa, hexponent, rfl⟩)
  · rintro (rfl | ⟨sign, hsign, rfl⟩ | ⟨sign, mantissa, exponent, hsign, hmantissa, hexponent, rfl⟩)
    · exact .empty
    · exact .infinity hsign
    · exact .decimal hsign hmantissa hexponent

/-- What is peculiar to numbers in a base needs a base. -/
theorem announcedBase?_of_peculiar {cs : List Char} (h : IsOverlong cs ∨ IsPlusMarked cs) :
    announcedBase? cs ≠ none := by
  rcases h with ⟨mark, base, ds, hmark, -, rfl, -⟩ | ⟨mark, base, ds, hmark, -, rfl, -⟩
  · rw [announcedBase?_eq_some_iff.mpr ⟨mark, hmark, rfl⟩]
    exact Option.some_ne_none _
  · rw [announcedBase?_eq_some_iff.mpr ⟨mark, hmark, rfl⟩]
    exact Option.some_ne_none _

theorem exists_infinity_iff {cs : List Char} :
    (∃ sign, IsSign sign ∧ cs = sign ++ "Infinity".toList) ↔
      (cs = "Infinity".toList ∨ cs = "+Infinity".toList) ∨ cs = "-Infinity".toList := by
  constructor
  · rintro ⟨sign, hsign, rfl⟩
    cases hsign with
    | absent => exact .inl (.inl rfl)
    | plus => exact .inl (.inr rfl)
    | minus => exact .inr rfl
  · rintro ((rfl | rfl) | rfl)
    · exact ⟨[], .absent, rfl⟩
    · exact ⟨['+'], .plus, rfl⟩
    · exact ⟨['-'], .minus, rfl⟩

end NumericText

/-! ## Numbers of the backend -/

namespace Double

theorem ofRounded_ne_nan (negative : Bool) (significand : Nat) (exponent : Int) :
    ofRounded negative significand exponent ≠ nan := by
  unfold ofRounded
  split_ifs <;> exact Double.noConfusion

theorem ofRatio_ne_nan (negative : Bool) (n d : Nat) : ofRatio negative n d ≠ nan := by
  unfold ofRatio
  split_ifs
  · exact Double.noConfusion
  · apply ofRounded_ne_nan

theorem ofDecimal_ne_nan (negative : Bool) (significand : Nat) (exponent : Int) :
    ofDecimal negative significand exponent ≠ nan := by
  unfold ofDecimal
  dsimp only
  split_ifs
  · exact Double.noConfusion
  · exact Double.noConfusion
  · exact Double.noConfusion
  · apply ofRatio_ne_nan

/-- A text that announces a base is read as a number if an integer in that
base follows. -/
theorem ofPageText_of_announcedBase? {text : String} {base : Nat} {rest : List Char}
    (h : announcedBase? (trim text.toList) = some (base, rest)) :
    ofPageText text ≠ nan ↔ ∃ n, wordInBase? base rest = some n := by
  have hne : trim text.toList ≠ [] := by
    intro hnil
    rw [hnil] at h
    exact nomatch h
  unfold ofPageText
  dsimp only
  rw [if_neg hne, h]
  cases hword : wordInBase? base rest with
  | none => simp [hword]
  | some n => simp [hword, ofInt, ofRatio_ne_nan]

/-- Any other text is read as a number if it is empty, an infinity or a
decimal number. -/
theorem ofPageText_of_announcedBase?_eq_none {text : String}
    (h : announcedBase? (trim text.toList) = none) :
    ofPageText text ≠ nan ↔ trim text.toList = [] ∨
      (∃ sign, IsSign sign ∧ trim text.toList = sign ++ "Infinity".toList) ∨
      ∃ n, Numeral.ofText? (trim text.toList) = some n := by
  rw [exists_infinity_iff]
  unfold ofPageText
  dsimp only
  rw [h]
  split_ifs with hnil hplus hminus
  · exact iff_of_true Double.noConfusion (.inl hnil)
  · exact iff_of_true Double.noConfusion (.inr (.inl (.inl hplus)))
  · exact iff_of_true Double.noConfusion (.inr (.inl (.inr hminus)))
  · cases hread : Numeral.ofText? (trim text.toList) with
    | none =>
      refine iff_of_false (fun h => h rfl) ?_
      rintro (h | (h | h) | ⟨n, hn⟩)
      · exact hnil h
      · exact hplus h
      · exact hminus h
      · exact nomatch hn
    | some n => exact iff_of_true (ofDecimal_ne_nan _ _ _) (.inr (.inr ⟨n, rfl⟩))

/-- A text is read as a number if a script takes it for one, except for
integers in a base that do not fit into sixty-four bits, and if it is an
integer in a base with a plus sign behind the base. So the reader and a
script agree on a text if it is neither. -/
theorem ofPageText_ne_nan_iff (text : String) :
    (ofPageText text ≠ nan ↔
      (IsNumeric (trim text.toList) ∧ ¬IsOverlong (trim text.toList)) ∨
        IsPlusMarked (trim text.toList)) ∧
    ((ofPageText text ≠ nan ↔ IsNumeric (trim text.toList)) ↔
      ¬IsOverlong (trim text.toList) ∧ ¬IsPlusMarked (trim text.toList)) := by
  have hnumeric : IsOverlong (trim text.toList) → IsNumeric (trim text.toList) := by
    rintro ⟨mark, base, ds, hmark, hds, heq, -⟩
    rw [heq]
    exact .inBase hmark hds
  have hplus : IsPlusMarked (trim text.toList) → ¬IsNumeric (trim text.toList) := by
    rintro ⟨mark, base, ds, hmark, -, heq, -⟩ h
    rw [heq, isNumeric_announced_iff hmark] at h
    exact plus_notMem_digits (List.mem_of_mem_take (h.2 '+' List.mem_cons_self))
  have hread : ofPageText text ≠ nan ↔
      (IsNumeric (trim text.toList) ∧ ¬IsOverlong (trim text.toList)) ∨
        IsPlusMarked (trim text.toList) := by
    cases h : announcedBase? (trim text.toList) with
    | none =>
      have hoverlong : ¬IsOverlong (trim text.toList) := fun hcs =>
        announcedBase?_of_peculiar (.inl hcs) h
      have hmarked : ¬IsPlusMarked (trim text.toList) := fun hcs =>
        announcedBase?_of_peculiar (.inr hcs) h
      rw [ofPageText_of_announcedBase?_eq_none h, ← isNumeric_iff_of_announcedBase? h]
      tauto
    | some r =>
      obtain ⟨base, rest⟩ := r
      obtain ⟨mark, hmark, heq⟩ := announcedBase?_eq_some_iff.mp h
      rw [ofPageText_of_announcedBase? h, exists_wordInBase?_iff hmark, heq,
        isNumeric_announced_iff hmark, isOverlong_announced_iff hmark,
        isPlusMarked_announced_iff hmark]
      constructor
      · rintro ⟨ds, rfl | rfl, hds, hvalue⟩
        · exact .inl ⟨hds, fun h => absurd h.2 (not_le.mpr hvalue)⟩
        · exact .inr ⟨ds, rfl, hds, hvalue⟩
      · rintro (⟨hds, hvalue⟩ | ⟨ds, rfl, hds, hvalue⟩)
        · exact ⟨rest, .inl rfl, hds, not_le.mp fun h => hvalue ⟨hds, h⟩⟩
        · exact ⟨ds, .inr rfl, hds, hvalue⟩
  refine ⟨hread, ?_⟩
  tauto

/-- A plus sign behind the base, which no script allows, and the first
integer in base sixteen that does not fit. -/
theorem ofPageText_hexadecimal :
    (ofPageText "0x+10" = ofInt 16 ∧ ¬IsNumeric (trim "0x+10".toList)) ∧
      ofPageText "0x10000000000000000" = nan ∧
        IsNumeric (trim "0x10000000000000000".toList) := by
  have hmark : ('x', 16) ∈ marks := by decide
  have hplus : trim "0x+10".toList = '0' :: 'x' :: "+10".toList := by decide +kernel
  have hlong : trim "0x10000000000000000".toList = '0' :: 'x' :: "10000000000000000".toList := by
    decide +kernel
  refine ⟨⟨by decide +kernel, ?_⟩, by decide +kernel, ?_⟩
  · rw [hplus, isNumeric_announced_iff hmark]
    intro h
    exact plus_notMem_digits (List.mem_of_mem_take (h.2 '+' List.mem_cons_self))
  · have hdigits : "10000000000000000".toList.all fun c => decide (c.toLower ∈ digits.take 16) := by
      decide +kernel
    rw [hlong, isNumeric_announced_iff hmark]
    exact ⟨by decide, fun c hc => of_decide_eq_true (List.all_eq_true.mp hdigits c hc)⟩

end Double

end PagePreview
