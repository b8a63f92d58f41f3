/-
PagePreview.Proofs.Json.Guard — a JSON text inside of a script says what it
said before.

The start of a closing tag that stands in a JSON text stands in one of its
strings, as no other word holds its characters, and there a slash and an
escaped slash are the same character. So the guard against closing tags
changes the text of a word, but no word.

* `guardClosingTags_append` — what holds no `<` is left alone.
* `splitString?_guardClosingTags` — a string, with what follows it.
* `nextWord?_guardClosingTags` — a word, with what follows it.
* `words?_guardClosingTags` — all words of a text.
* `parse?_guardClosingTags` — the value of a text.
-/
import PagePreview.Backend.Bootstrap
import PagePreview.Json.Written
import PagePreview.Proofs.Json.Words

namespace PagePreview

namespace Json

open Bootstrap (guardClosingTags)

theorem guardClosingTags_cons {c : Char} (hc : c ≠ '<') (rest : List Char) :
    guardClosingTags (c :: rest) = c :: guardClosingTags rest := by
  rw [guardClosingTags]
  exact fun _ h => absurd h hc

/-- What holds no `<` is left alone. -/
theorem guardClosingTags_append (rest : List Char) : ∀ {before : List Char}, '<' ∉ before →
    guardClosingTags (before ++ rest) = before ++ guardClosingTags rest
  | [], _ => rfl
  | c :: before, h => by
      rw [List.mem_cons, not_or] at h
      rw [List.cons_append, guardClosingTags_cons (Ne.symm h.1), guardClosingTags_append rest h.2]
      rfl

/-- The first character of a text is kept. -/
theorem guardClosingTags_head (c : Char) (rest : List Char) :
    ∃ rest', guardClosingTags (c :: rest) = c :: rest' := by
  unfold guardClosingTags
  split
  next heq =>
    obtain ⟨rfl, -⟩ := List.cons.inj heq
    exact ⟨_, rfl⟩
  next heq =>
    obtain ⟨rfl, rfl⟩ := List.cons.inj heq
    exact ⟨_, rfl⟩
  next heq => exact nomatch heq

/-! ## Numbers -/

theorem splitDigits_guardClosingTags : ∀ cs : List Char,
    splitDigits (guardClosingTags cs) = ((splitDigits cs).1, guardClosingTags (splitDigits cs).2)
  | [] => rfl
  | c :: rest => by
      by_cases hc : c.isDigit
      · have hlt : c ≠ '<' := by
          rintro rfl
          exact absurd hc (by decide)
        have hrec := splitDigits_guardClosingTags rest
        simp only [splitDigits, Prod.mk.injEq] at hrec
        simp [splitDigits, guardClosingTags_cons hlt, hc, hrec]
      · obtain ⟨rest', hhead⟩ := guardClosingTags_head c rest
        simp [splitDigits, hhead, hc]

theorem splitMinus_guardClosingTags (cs : List Char) :
    splitMinus (guardClosingTags cs) = ((splitMinus cs).1, guardClosingTags (splitMinus cs).2) := by
  cases cs with
  | nil => rfl
  | cons c rest =>
    by_cases hc : c = '-'
    · rw [guardClosingTags_cons (by simp [hc]), hc]
      rfl
    · obtain ⟨rest', hhead⟩ := guardClosingTags_head c rest
      simp [splitMinus, hhead, hc]

theorem splitSign_guardClosingTags (cs : List Char) :
    splitSign (guardClosingTags cs) = ((splitSign cs).1, guardClosingTags (splitSign cs).2) := by
  cases cs with
  | nil => rfl
  | cons c rest =>
    by_cases hc : c = '-' ∨ c = '+'
    · have hlt : c ≠ '<' := by rcases hc with rfl | rfl <;> decide
      rw [guardClosingTags_cons hlt]
      rcases hc with rfl | rfl <;> rfl
    · obtain ⟨rest', hhead⟩ := guardClosingTags_head c rest
      obtain ⟨hminus, hplus⟩ := not_or.mp hc
      simp [splitSign, hhead, hminus, hplus]

theorem splitWhole?_guardClosingTags (cs : List Char) :
    splitWhole? (guardClosingTags cs) =
      (splitWhole? cs).map fun r => (r.1, guardClosingTags r.2) := by
  cases cs with
  | nil => rfl
  | cons c rest =>
    by_cases hc : c = '0'
    · rw [guardClosingTags_cons (by simp [hc]), hc]
      rfl
    · have hother : ∀ r, splitWhole? (c :: r) =
          if (splitDigits (c :: r)).1 = [] then none else some (splitDigits (c :: r)) := fun r => by
        rw [splitWhole?]
        exact fun _ h => hc (List.cons.inj h).1
      have hdigits := splitDigits_guardClosingTags (c :: rest)
      obtain ⟨rest', hhead⟩ := guardClosingTags_head c rest
      rw [hhead] at hdigits ⊢
      rw [hother, hother, hdigits]
      split <;> rfl

theorem splitPoint?_guardClosingTags (cs : List Char) :
    splitPoint? (guardClosingTags cs) =
      (splitPoint? cs).map fun r => (r.1, guardClosingTags r.2) := by
  cases cs with
  | nil => rfl
  | cons c rest =>
    by_cases hc : c = '.'
    · subst hc
      rw [guardClosingTags_cons (by decide)]
      simp only [splitPoint?, splitDigits_guardClosingTags]
      split <;> rfl
    · obtain ⟨rest', hhead⟩ := guardClosingTags_head c rest
      simp [splitPoint?, hhead, hc]

theorem splitExponent?_guardClosingTags (cs : List Char) :
    splitExponent? (guardClosingTags cs) =
      (splitExponent? cs).map fun r => (r.1, guardClosingTags r.2) := by
  cases cs with
  | nil => rfl
  | cons c rest =>
    by_cases hc : c = 'e' ∨ c = 'E'
    · have hlt : c ≠ '<' := by rcases hc with rfl | rfl <;> decide
      rw [guardClosingTags_cons hlt]
      simp only [splitExponent?, if_pos hc, splitSign_guardClosingTags,
        splitDigits_guardClosingTags]
      split <;> rfl
    · obtain ⟨rest', hhead⟩ := guardClosingTags_head c rest
      simp [splitExponent?, hhead, hc]

/-- A number is read as before, with what follows it. -/
theorem splitNumber?_guardClosingTags (cs : List Char) :
    splitNumber? (guardClosingTags cs) =
      (splitNumber? cs).map fun r => (r.1, guardClosingTags r.2) := by
  unfold splitNumber?
  rw [splitMinus_guardClosingTags]
  simp only [splitWhole?_guardClosingTags, Option.bind_eq_bind]
  cases splitWhole? (splitMinus cs).2 with
  | none => rfl
  | some whole =>
    simp only [Option.map_some, Option.bind_some, splitPoint?_guardClosingTags]
    cases splitPoint? whole.2 with
    | none => rfl
    | some fraction =>
      simp only [Option.map_some, Option.bind_some, splitExponent?_guardClosingTags]
      cases splitExponent? fraction.2 <;> rfl

/-! ## Strings -/

theorem splitString?_escapedSlash (rest : List Char) :
    splitString? ('\\' :: '/' :: rest) = splitString? ('/' :: rest) := by
  rw [splitString?_short rfl, splitString?_plain (by decide) (by decide) (by decide)]

/-- Whether a slash behind a `<` is escaped makes no difference. -/
theorem splitString?_guardClosingTags_lt (rest : List Char) :
    splitString? (guardClosingTags ('<' :: rest)) =
      (splitString? (guardClosingTags rest)).map fun r => (.char '<' :: r.1, r.2) := by
  have hlt := splitString?_plain (c := '<') (by decide) (by decide) (by decide)
  by_cases hslash : ∃ r, rest = '/' :: r
  · obtain ⟨r, rfl⟩ := hslash
    rw [guardClosingTags, guardClosingTags_cons (by decide), hlt, splitString?_escapedSlash]
  · rw [guardClosingTags, hlt]
    exact fun r _ h => hslash ⟨r, h⟩

theorem notMem_of_hex4? {a b c d : Char} {n : Nat} (h : hex4? a b c d = some n) :
    '<' ∉ [a, b, c, d] := by
  have hnone : digitInBase? 16 '<' = none := rfl
  intro hmem
  simp only [List.mem_cons, List.not_mem_nil, or_false] at hmem
  rcases hmem with rfl | rfl | rfl | rfl <;> simp [hex4?, hnone] at h

/-- A string is read as before, with what follows it. -/
theorem splitString?_guardClosingTags {cs after : List Char} {content : List StringPart}
    (h : splitString? cs = some (content, after)) :
    splitString? (guardClosingTags cs) = some (content, guardClosingTags after) := by
  fun_induction splitString? cs generalizing content after with
  | case1 => cases h
  | case2 rest =>
    obtain ⟨rfl, rfl⟩ := Prod.mk.inj (Option.some.inj h)
    rw [guardClosingTags_cons (by decide), splitString?]
  | case3 a b c d rest n content' after' hrest hhex ih =>
    obtain ⟨rfl, rfl⟩ := Prod.mk.inj (Option.some.inj h)
    have hguard : guardClosingTags (a :: b :: c :: d :: rest) =
        a :: b :: c :: d :: guardClosingTags rest :=
      guardClosingTags_append rest (notMem_of_hex4? hhex)
    rw [guardClosingTags_cons (by decide), guardClosingTags_cons (by decide)]
    rw [hguard, splitString?_unit hhex, ih hrest]
    rfl
  | case5 e rest _ c content' after' hrest hescaped ih =>
    obtain ⟨rfl, rfl⟩ := Prod.mk.inj (Option.some.inj h)
    have he : e ≠ '<' := by
      rintro rfl
      cases hescaped
    rw [guardClosingTags_cons (by decide), guardClosingTags_cons he, splitString?_short hescaped,
      ih hrest]
    rfl
  | case8 c rest hquote _ _ hplain content' after' hrest ih =>
    obtain ⟨rfl, rfl⟩ := Prod.mk.inj (Option.some.inj h)
    obtain ⟨hprintable, hescape⟩ := not_or.mp hplain
    by_cases hc : c = '<'
    · rw [hc, splitString?_guardClosingTags_lt, ih hrest]
      rfl
    · rw [guardClosingTags_cons hc, splitString?_plain hquote hescape (by omega), ih hrest]
      rfl
  | case4 => cases h
  | case6 => cases h
  | case7 => cases h
  | case9 => cases h

/-! ## Words -/

theorem literal?_guardClosingTags {spelling : String} {word w : Word} {cs after : List Char}
    (hspelling : '<' ∉ spelling.toList) (h : literal? spelling word cs = some (w, after)) :
    literal? spelling word (guardClosingTags cs) = some (w, guardClosingTags after) := by
  obtain ⟨rest, hrest, heq⟩ := Option.map_eq_some_iff.mp h
  obtain ⟨rfl, rfl⟩ := Prod.mk.inj heq
  rw [dropStart?_eq_some_iff.mp hrest, guardClosingTags_append _ hspelling, literal?,
    dropStart?_eq_some_iff.mpr rfl, Option.map_some]

theorem head_of_splitNumber? {cs after : List Char} {n : Option Number}
    (h : splitNumber? cs = some (n, after)) : ∃ c rest, cs = c :: rest ∧ (c = '-' ∨ c.isDigit) := by
  cases cs with
  | nil => cases h
  | cons c rest =>
    refine ⟨c, rest, rfl, ?_⟩
    by_contra hc
    obtain ⟨hminus, hdigit⟩ := not_or.mp hc
    have hzero : c ≠ '0' := by
      rintro rfl
      exact hdigit (by decide)
    have hnone : splitNumber? (c :: rest) = none := by
      simp [splitNumber?, splitMinus, hminus, splitWhole?, hzero, splitDigits, hdigit]
    cases hnone.symm.trans h

/-- A word is read as before, with what follows it. -/
theorem nextWord?_guardClosingTags {cs after : List Char} {w : Word}
    (h : nextWord? cs = some (w, after)) :
    nextWord? (guardClosingTags cs) = some (w, guardClosingTags after) := by
  unfold nextWord? at h
  split at h
  case h_1 => exact nomatch h
  case h_8 rest =>
    obtain ⟨r, hr, heq⟩ := Option.map_eq_some_iff.mp h
    obtain ⟨rfl, rfl⟩ := Prod.mk.inj heq
    rw [guardClosingTags_cons (by decide), nextWord?, splitString?_guardClosingTags hr]
    rfl
  case h_9 =>
    rw [guardClosingTags_cons (by decide), nextWord?]
    exact literal?_guardClosingTags (by decide) h
  case h_10 =>
    rw [guardClosingTags_cons (by decide), nextWord?]
    exact literal?_guardClosingTags (by decide) h
  case h_11 =>
    rw [guardClosingTags_cons (by decide), nextWord?]
    exact literal?_guardClosingTags (by decide) h
  case h_12 =>
    obtain ⟨r, hr, heq⟩ := Option.map_eq_some_iff.mp h
    obtain ⟨rfl, rfl⟩ := Prod.mk.inj heq
    obtain ⟨c, rest, rfl, hc⟩ := head_of_splitNumber? hr
    have hguard := splitNumber?_guardClosingTags (c :: rest)
    obtain ⟨rest', hhead⟩ := guardClosingTags_head c rest
    rw [hr, hhead] at hguard
    rw [hhead, nextWord?_of_head hc, hguard]
    rfl
  all_goals
    obtain ⟨rfl, rfl⟩ := Prod.mk.inj (Option.some.inj h)
    rw [guardClosingTags_cons (by decide), nextWord?]

theorem dropWhile_guardClosingTags : ∀ cs : List Char,
    (guardClosingTags cs).dropWhile isBlank = guardClosingTags (cs.dropWhile isBlank)
  | [] => rfl
  | c :: rest => by
      by_cases hc : isBlank c
      · have hlt : c ≠ '<' := by
          rintro rfl
          exact absurd hc (by decide)
        rw [guardClosingTags_cons hlt, List.dropWhile_cons_of_pos hc, List.dropWhile_cons_of_pos hc,
          dropWhile_guardClosingTags rest]
      · obtain ⟨rest', hhead⟩ := guardClosingTags_head c rest
        rw [List.dropWhile_cons_of_neg hc, hhead, List.dropWhile_cons_of_neg hc]

/-- The words of a text are the same as before. -/
theorem words?_guardClosingTags {cs : List Char} {ws : List Word} (h : words? cs = some ws) :
    words? (guardClosingTags cs) = some ws := by
  fun_induction words? cs generalizing ws with
  | case1 cs hnil =>
    have hdrop := dropWhile_guardClosingTags cs
    rw [hnil] at hdrop
    rw [words?_of_dropWhile_eq_nil hdrop, h]
  | case2 cs c rest hcons hnone => exact nomatch h
  | case3 cs c rest hcons w after hsome ih =>
    obtain ⟨ws', hws', rfl⟩ := Option.map_eq_some_iff.mp h
    have hdrop := dropWhile_guardClosingTags cs
    rw [hcons] at hdrop
    rw [words?_of_dropWhile hdrop (nextWord?_guardClosingTags hsome), ih hws']
    rfl

/-- A text is read as the same value as before. -/
theorem parse?_guardClosingTags {text : String} {v : Json} (h : parse? text = some v) :
    parse? (String.ofList (guardClosingTags text.toList)) = some v := by
  obtain ⟨w, hw, hv⟩ := Option.bind_eq_some_iff.mp h
  obtain ⟨ws, hws, hread⟩ := Option.bind_eq_some_iff.mp hw
  rw [parse?, Written.parse?, String.toList_ofList, words?_guardClosingTags hws, Option.bind_some,
    hread, Option.bind_some, hv]

end Json

end PagePreview
