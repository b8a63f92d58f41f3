/-
PagePreview.Proofs.Source.Literal — quoted texts, character by character.

Behind its opening quote, a quoted text is cut from left to right into
escapes, a backslash with a quote or a backslash behind it, and single
characters (`literalUnits`). It ends with the first quote that is a unit of
its own. Each unit says its last character.

* `literal_induction` — induction along the units.
* `splitLiteral_units` — where a quoted text ends.
* `splitLiteral_truncate` — a quoted text that is closed hangs on nothing
  behind it.
-/
import Mathlib
import PagePreview.Source.Lexer

namespace PagePreview

/-- The characters behind an opening quote, cut from left to right into
escapes and single characters. -/
def literalUnits : List Char → List (List Char)
  | [] => []
  | '\\' :: '"' :: rest => ['\\', '"'] :: literalUnits rest
  | '\\' :: '\\' :: rest => ['\\', '\\'] :: literalUnits rest
  | c :: rest => [c] :: literalUnits rest

/-! ## The steps -/

/-- The first of these characters is no part of an escape. -/
def Plain (c : Char) (rest : List Char) : Prop :=
  c = '\\' → ∀ d ∈ rest.head?, d ≠ '"' ∧ d ≠ '\\'

theorem plain_of_ne {c : Char} (h : c ≠ '\\') (rest : List Char) : Plain c rest :=
  fun hc => absurd hc h

theorem literal_induction {motive : List Char → Prop}
    (nil : motive [])
    (quote : ∀ rest, motive ('"' :: rest))
    (escape : ∀ c rest, c = '"' ∨ c = '\\' → motive rest → motive ('\\' :: c :: rest))
    (plain : ∀ c rest, c ≠ '"' → Plain c rest → motive rest → motive (c :: rest))
    (cs : List Char) : motive cs := by
  fun_induction splitLiteral cs with
  | case1 => exact nil
  | case2 rest => exact quote rest
  | case3 rest raw after heq ih => exact escape '"' rest (.inl rfl) ih
  | case4 rest raw after heq ih => exact escape '\\' rest (.inr rfl) ih
  | case5 c rest hquote hescape hbackslash raw after heq ih =>
    refine plain c rest hquote (fun hc d hd => ?_) ih
    obtain ⟨tail, rfl⟩ := List.head?_eq_some_iff.mp hd
    constructor
    · rintro rfl
      exact hescape tail hc rfl
    · rintro rfl
      exact hbackslash tail hc rfl

section Steps

variable {c : Char} {rest : List Char}

theorem splitLiteral_escape (hc : c = '"' ∨ c = '\\') :
    splitLiteral ('\\' :: c :: rest) =
      ('\\' :: c :: (splitLiteral rest).1, (splitLiteral rest).2) := by
  rcases hc with rfl | rfl <;> rfl

theorem literalText_escape (hc : c = '"' ∨ c = '\\') :
    literalText ('\\' :: c :: rest) = c :: literalText rest := by
  rcases hc with rfl | rfl <;> rfl

theorem literalUnits_escape (hc : c = '"' ∨ c = '\\') :
    literalUnits ('\\' :: c :: rest) = ['\\', c] :: literalUnits rest := by
  rcases hc with rfl | rfl <;> rfl

theorem splitLiteral_plain (hquote : c ≠ '"') (hplain : Plain c rest) :
    splitLiteral (c :: rest) = (c :: (splitLiteral rest).1, (splitLiteral rest).2) := by
  rw [splitLiteral]
  · exact hquote
  · rintro tail rfl rfl
    exact (hplain rfl '"' rfl).1 rfl
  · rintro tail rfl rfl
    exact (hplain rfl '\\' rfl).2 rfl

theorem literalText_plain (hquote : c ≠ '"') (hplain : Plain c rest) :
    literalText (c :: rest) = c :: literalText rest := by
  rw [literalText]
  · exact hquote
  · rintro tail rfl rfl
    exact (hplain rfl '"' rfl).1 rfl
  · rintro tail rfl rfl
    exact (hplain rfl '\\' rfl).2 rfl

theorem literalUnits_plain (hplain : Plain c rest) :
    literalUnits (c :: rest) = [c] :: literalUnits rest := by
  rw [literalUnits]
  · rintro tail rfl rfl
    exact (hplain rfl '"' rfl).1 rfl
  · rintro tail rfl rfl
    exact (hplain rfl '\\' rfl).2 rfl

end Steps

/-- Only at the end of the source is a quoted text without a character. -/
theorem eq_nil_of_splitLiteral {cs : List Char} (h : (splitLiteral cs).1 = []) : cs = [] := by
  cases cs using literal_induction with
  | nil => rfl
  | quote rest => simp [splitLiteral] at h
  | escape c rest hc => simp [splitLiteral_escape hc] at h
  | plain c rest hquote hplain => simp [splitLiteral_plain hquote hplain] at h

/-- What is no part of an escape is none where the text is cut behind the
literal. -/
theorem Plain.truncate {c : Char} {rest after' : List Char} (h : Plain c rest)
    (hend : (splitLiteral rest).2 = [] → after' = []) :
    Plain c ((splitLiteral rest).1 ++ after') := by
  intro hc d hd
  have happend := splitLiteral_append rest
  cases hraw : (splitLiteral rest).1 with
  | nil =>
    obtain rfl := eq_nil_of_splitLiteral hraw
    simp [hraw, hend rfl] at hd
  | cons e raw =>
    rw [hraw] at happend hd
    refine h hc d ?_
    rw [← happend]
    exact hd

/-- A quoted text that is closed is read in the same way whatever follows
it. -/
theorem splitLiteral_truncate {cs after' : List Char}
    (hend : (splitLiteral cs).2 = [] → after' = []) :
    splitLiteral ((splitLiteral cs).1 ++ after') = ((splitLiteral cs).1, after') := by
  induction cs using literal_induction with
  | nil => rw [hend rfl]; rfl
  | quote rest => rfl
  | escape c rest hc ih =>
    rw [splitLiteral_escape hc] at hend ⊢
    rw [List.cons_append, List.cons_append, splitLiteral_escape hc, ih hend]
  | plain c rest hquote hplain ih =>
    rw [splitLiteral_plain hquote hplain] at hend ⊢
    rw [List.cons_append, splitLiteral_plain hquote (hplain.truncate hend), ih hend]

/-- A quoted text ends with the first quote that is no part of an escape, or
with the source. -/
theorem splitLiteral_units (cs : List Char) :
    ∃ units, ['"'] ∉ units ∧
      literalText (splitLiteral cs).1 = units.filterMap List.getLast? ∧
      (literalUnits (splitLiteral cs).1 = units ++ [['"']] ∨
        literalUnits (splitLiteral cs).1 = units ∧ (splitLiteral cs).2 = []) := by
  induction cs using literal_induction with
  | nil => exact ⟨[], List.not_mem_nil, rfl, .inr ⟨rfl, rfl⟩⟩
  | quote rest => exact ⟨[], List.not_mem_nil, rfl, .inl rfl⟩
  | escape c rest hc ih =>
    obtain ⟨units, hnotin, htext, hunits⟩ := ih
    rw [splitLiteral_escape hc, literalText_escape hc, literalUnits_escape hc]
    refine ⟨['\\', c] :: units, by simp [hnotin], by simp [htext], ?_⟩
    rcases hunits with hunits | ⟨hunits, hafter⟩
    · exact .inl (by rw [hunits, List.cons_append])
    · exact .inr ⟨by rw [hunits], hafter⟩
  | plain c rest hquote hplain ih =>
    obtain ⟨units, hnotin, htext, hunits⟩ := ih
    have hplain' : Plain c ((splitLiteral rest).1 ++ []) := hplain.truncate fun _ => rfl
    rw [List.append_nil] at hplain'
    rw [splitLiteral_plain hquote hplain, literalText_plain hquote hplain',
      literalUnits_plain hplain']
    refine ⟨[c] :: units, by simp [hnotin, Ne.symm hquote], by simp [htext], ?_⟩
    rcases hunits with hunits | ⟨hunits, hafter⟩
    · exact .inl (by rw [hunits, List.cons_append])
    · exact .inr ⟨by rw [hunits], hafter⟩

end PagePreview
