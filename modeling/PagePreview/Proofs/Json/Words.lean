/-
PagePreview.Proofs.Json.Words — the words of a value that is written.

Every word is read from its own text, whatever stands behind it; only a
number must not be followed by what goes on with a number, and a writer
puts a comma or a closing bracket there. So what is written for a value is
read as the words of the value.

* `splitString?_escapeChar` — a character of a string.
* `nextWord?_quoted`, `nextWord?_number` — strings and numbers.
* `Json.wordsOf` — the words of a value.
* `words?_write` — the words of what is written for a value.
-/
import PagePreview.Proofs.Json.Number

namespace PagePreview

namespace Json

/-! ## Strings -/

theorem splitString?_short {e c : Char} (h : escaped? e = some c) (rest : List Char) :
    splitString? ('\\' :: e :: rest) =
      (splitString? rest).map fun r => (.char c :: r.1, r.2) := by
  have he : e ≠ 'u' := by
    rintro rfl
    exact nomatch h
  rw [splitString?, h]
  · cases splitString? rest <;> rfl
  · exact fun _ _ _ _ _ heq => absurd heq he

theorem splitString?_unit {a b c d : Char} {n : Nat} (h : hex4? a b c d = some n)
    (rest : List Char) :
    splitString? ('\\' :: 'u' :: a :: b :: c :: d :: rest) =
      (splitString? rest).map fun r => (.unit n :: r.1, r.2) := by
  rw [splitString?, h]
  cases splitString? rest <;> rfl

theorem splitString?_plain {c : Char} (hquote : c ≠ '"') (hescape : c ≠ '\\')
    (hprintable : 0x20 ≤ c.toNat) (rest : List Char) :
    splitString? (c :: rest) = (splitString? rest).map fun r => (.char c :: r.1, r.2) := by
  rw [splitString?, if_neg (by simp [hescape]; omega)]
  · cases splitString? rest <;> rfl
  · exact hquote
  · exact fun _ _ _ _ _ heq => absurd heq hescape
  · exact fun _ _ heq => absurd heq hescape

/-- The part of a string that is written for a character. Control characters
without a short escape are written as units. -/
def partOf (c : Char) : StringPart :=
  if c.toNat < 0x20 ∧ c ∉ ['\x08', '\x0c', '\n', '\r', '\t'] then .unit c.toNat else .char c

theorem hex4?_hexDigit : ∀ n < 0x20,
    hex4? '0' '0' (hexDigit (n / 16)) (hexDigit (n % 16)) = some n := by
  decide

/-- A character of a string is read, with anything behind it. -/
theorem splitString?_escapeChar (c : Char) (rest : List Char) :
    splitString? (escapeChar c ++ rest) =
      (splitString? rest).map fun r => (partOf c :: r.1, r.2) := by
  unfold escapeChar
  split_ifs with hquote hescape hb hf hn hr ht hcontrol
  · subst hquote
    exact splitString?_short rfl rest
  · subst hescape
    exact splitString?_short rfl rest
  · subst hb
    exact splitString?_short rfl rest
  · subst hf
    exact splitString?_short rfl rest
  · subst hn
    exact splitString?_short rfl rest
  · subst hr
    exact splitString?_short rfl rest
  · subst ht
    exact splitString?_short rfl rest
  · have hpart : partOf c = .unit c.toNat := if_pos ⟨hcontrol, by simp [hb, hf, hn, hr, ht]⟩
    rw [hpart]
    exact splitString?_unit (hex4?_hexDigit _ hcontrol) rest
  · have hpart : partOf c = .char c := if_neg fun h => hcontrol h.1
    rw [hpart]
    exact splitString?_plain hquote hescape (by omega) rest

theorem splitString?_flatMap_escapeChar (rest : List Char) : ∀ s : List Char,
    splitString? (s.flatMap escapeChar ++ '"' :: rest) = some (s.map partOf, rest)
  | [] => rfl
  | c :: s => by
      rw [List.flatMap_cons, List.append_assoc, splitString?_escapeChar,
        splitString?_flatMap_escapeChar rest s]
      rfl

theorem joinUnits?_partOf (c : Char) (parts : List StringPart) :
    joinUnits? (partOf c :: parts) = (joinUnits? parts).map (c :: ·) := by
  unfold partOf
  split_ifs with hcontrol
  · have hhigh : ¬isHighSurrogate c.toNat := by
      simp only [isHighSurrogate, Bool.and_eq_true, decide_eq_true_iff]
      omega
    have hlow : ¬isLowSurrogate c.toNat := by
      simp only [isLowSurrogate, Bool.and_eq_true, decide_eq_true_iff]
      omega
    rcases parts with _ | ⟨_ | n, parts⟩ <;> simp [joinUnits?, hhigh, hlow]
  · rw [joinUnits?]

theorem joinUnits?_map_partOf : ∀ s : List Char, joinUnits? (s.map partOf) = some s
  | [] => rfl
  | c :: s => by rw [List.map_cons, joinUnits?_partOf, joinUnits?_map_partOf s]; rfl

/-- A string that is written is read, with anything behind it. -/
theorem nextWord?_quoted (s : String) (rest : List Char) :
    nextWord? (quoted s ++ rest) = some (.string (some s), rest) := by
  have hcontent : quoted s ++ rest = '"' :: (s.toList.flatMap escapeChar ++ '"' :: rest) := by
    simp [quoted]
  rw [hcontent, nextWord?, splitString?_flatMap_escapeChar, Option.map_some, joinUnits?_map_partOf,
    Option.map_some, String.ofList_toList]

/-! ## Numbers -/

/-- A numeral begins with a minus sign or a digit. -/
theorem head_text {n : Numeral} (hn : n.Grammatical) :
    ∃ c cs, n.text = c :: cs ∧ (c = '-' ∨ c.isDigit) := by
  obtain ⟨d, ds, hwhole⟩ := List.exists_cons_of_ne_nil hn.ne_nil
  have hdigit := (digitChar_lt_ten d (hn.whole d (hwhole ▸ List.mem_cons_self))).1
  rw [Numeral.text, hwhole]
  cases n.negative with
  | true => exact ⟨'-', _, rfl, .inl rfl⟩
  | false => exact ⟨Notation.digitChar d, _, rfl, .inr hdigit⟩

theorem nextWord?_of_head {c : Char} (hc : c = '-' ∨ c.isDigit) (rest : List Char) :
    nextWord? (c :: rest) = (splitNumber? (c :: rest)).map fun r => (.number r.1, r.2) := by
  have hother : ∀ x : Char, ¬(x = '-' ∨ x.isDigit) → c ≠ x := fun x hx h => hx (h ▸ hc)
  rw [nextWord?]
  · exact List.cons_ne_nil c rest
  all_goals exact fun _ h => hother _ (by decide) (List.cons.inj h).1

/-- A number that is written is read, with anything behind it that does not
go on with it. -/
theorem nextWord?_number {n : Number} (h : n.Readable) {rest : List Char}
    (hrest : EndsNumber rest) : nextWord? (n.write ++ rest) = some (.number (some n), rest) := by
  obtain ⟨c, cs, htext, hc⟩ := head_text (Number.grammatical_numeral h)
  have hread := splitNumber?_write h hrest
  rw [Number.write_eq h, htext, List.cons_append] at hread ⊢
  rw [nextWord?_of_head hc, hread]
  rfl

/-! ## Values -/

mutual

/-- The words of a value. -/
def wordsOf : Json → List Word
  | null => [.null]
  | bool b => [.bool b]
  | number n => [.number (some n)]
  | string s => [.string (some s)]
  | array items => .openArray :: (itemWords items ++ [.closeArray])
  | object members => .openObject :: (memberWords members ++ [.closeObject])

def itemWords : List Json → List Word
  | [] => []
  | [v] => wordsOf v
  | v :: rest => wordsOf v ++ .comma :: itemWords rest

def memberWords : List (String × Json) → List Word
  | [] => []
  | [(name, v)] => .string (some name) :: .colon :: wordsOf v
  | (name, v) :: rest =>
    .string (some name) :: .colon :: (wordsOf v ++ .comma :: memberWords rest)

end

mutual

/-- A value that a text can hold, with at most `levels` arrays and objects
around any part of it. -/
def Fits : Nat → Json → Prop
  | _, null => True
  | _, bool _ => True
  | _, number n => n.Readable
  | _, string _ => True
  | 0, array _ => False
  | levels + 1, array items => FitsItems levels items
  | 0, object _ => False
  | levels + 1, object members => FitsMembers levels members

def FitsItems : Nat → List Json → Prop
  | _, [] => True
  | levels, v :: rest => v.Fits levels ∧ FitsItems levels rest

def FitsMembers : Nat → List (String × Json) → Prop
  | _, [] => True
  | levels, (_, v) :: rest => v.Fits levels ∧ FitsMembers levels rest

end

theorem nextWord?_blank {c : Char} (hc : isBlank c) (rest : List Char) :
    nextWord? (c :: rest) = none := by
  have hcases : c = ' ' ∨ c = '\t' ∨ c = '\n' ∨ c = '\r' := by
    simpa [isBlank, or_assoc] using hc
  rcases hcases with rfl | rfl | rfl | rfl <;> rfl

theorem words?_of_dropWhile_eq_nil {cs : List Char} (h : cs.dropWhile isBlank = []) :
    words? cs = some [] := by
  rw [words?]
  split
  next => rfl
  next hcons => cases h.symm.trans hcons

/-- The words of a text in which a word follows the blanks. -/
theorem words?_of_dropWhile {cs rest after : List Char} {w : Word}
    (h : cs.dropWhile isBlank = rest) (hw : nextWord? rest = some (w, after)) :
    words? cs = (words? after).map (w :: ·) := by
  rw [words?]
  split
  next hnil =>
    rw [← h, hnil] at hw
    cases hw
  next c rest' hcons =>
    rw [← h, hcons] at hw
    split
    next hnone => cases hw.symm.trans hnone
    next w' after' hsome =>
      obtain ⟨rfl, rfl⟩ := Prod.mk.inj (Option.some.inj (hw.symm.trans hsome))
      rfl

/-- The words of a text that begins with a word. -/
theorem words?_of_nextWord? {cs : List Char} {w : Word} (after : List Char)
    (h : nextWord? cs = some (w, after)) : words? cs = (words? after).map (w :: ·) := by
  refine words?_of_dropWhile ?_ h
  cases cs with
  | nil => rfl
  | cons c rest =>
    refine List.dropWhile_cons_of_neg fun hblank => ?_
    rw [nextWord?_blank hblank] at h
    exact nomatch h

theorem endsNumber_cons {c : Char} (hc : ¬c.isDigit ∧ c ≠ '.' ∧ c ≠ 'e' ∧ c ≠ 'E')
    (rest : List Char) : EndsNumber (c :: rest) := fun _ h => by
  rwa [← Option.some.inj h]

mutual

/-- What is written for a value is read as the words of the value. -/
theorem words?_write : ∀ {levels : Nat} {v : Json}, v.Fits levels →
    ∀ {rest : List Char}, EndsNumber rest →
      words? (v.write ++ rest) = (words? rest).map (v.wordsOf ++ ·)
  | _, null, _, _, _ => words?_of_nextWord? _ rfl
  | _, bool true, _, _, _ => words?_of_nextWord? _ rfl
  | _, bool false, _, _, _ => words?_of_nextWord? _ rfl
  | _, number _, h, _, hrest => words?_of_nextWord? _ (nextWord?_number h hrest)
  | _, string s, _, rest, _ => words?_of_nextWord? _ (nextWord?_quoted s rest)
  | levels + 1, array items, h, rest, _ => by
      rw [write, List.cons_append, List.append_assoc, List.singleton_append,
        words?_of_nextWord? (writeItems items ++ ']' :: rest) rfl,
        words?_writeItems h (endsNumber_cons (by decide) rest),
        words?_of_nextWord? rest rfl]
      cases words? rest <;> simp [wordsOf]
  | levels + 1, object members, h, rest, _ => by
      rw [write, List.cons_append, List.append_assoc, List.singleton_append,
        words?_of_nextWord? (writeMembers members ++ '}' :: rest) rfl,
        words?_writeMembers h (endsNumber_cons (by decide) rest),
        words?_of_nextWord? rest rfl]
      cases words? rest <;> simp [wordsOf]

theorem words?_writeItems : ∀ {levels : Nat} {items : List Json}, FitsItems levels items →
    ∀ {rest : List Char}, EndsNumber rest →
      words? (writeItems items ++ rest) = (words? rest).map (itemWords items ++ ·)
  | _, [], _, rest, _ => by simp [writeItems, itemWords]
  | _, [_], h, _, hrest => words?_write h.1 hrest
  | _, v :: w :: items, h, rest, hrest => by
      rw [writeItems, List.append_assoc, List.cons_append,
        words?_write h.1 (endsNumber_cons (by decide) _),
        words?_of_nextWord? (writeItems (w :: items) ++ rest) rfl,
        words?_writeItems h.2 hrest]
      · cases words? rest <;> simp [itemWords]
      · exact List.cons_ne_nil w items

theorem words?_writeMembers : ∀ {levels : Nat} {members : List (String × Json)},
    FitsMembers levels members → ∀ {rest : List Char}, EndsNumber rest →
      words? (writeMembers members ++ rest) = (words? rest).map (memberWords members ++ ·)
  | _, [], _, rest, _ => by simp [writeMembers, memberWords]
  | _, [(name, v)], h, rest, hrest => by
      rw [writeMembers, List.append_assoc, List.cons_append,
        words?_of_nextWord? _ (nextWord?_quoted name _),
        words?_of_nextWord? (write v ++ rest) rfl, words?_write h.1 hrest]
      cases words? rest <;> simp [memberWords]
  | _, (name, v) :: m :: members, h, rest, hrest => by
      rw [writeMembers, List.append_assoc, List.cons_append, List.append_assoc, List.cons_append,
        words?_of_nextWord? _ (nextWord?_quoted name _),
        words?_of_nextWord? (write v ++ ',' :: (writeMembers (m :: members) ++ rest)) rfl,
        words?_write h.1 (endsNumber_cons (by decide) _),
        words?_of_nextWord? (writeMembers (m :: members) ++ rest) rfl,
        words?_writeMembers h.2 hrest]
      · cases words? rest <;> simp [memberWords]
      · exact List.cons_ne_nil m members

end

/-- The words of the text of a value. -/
theorem words?_text {levels : Nat} {v : Json} (h : v.Fits levels) :
    words? v.text.toList = some v.wordsOf := by
  have hread := words?_write h endsNumber_nil
  rw [List.append_nil] at hread
  rw [text, String.toList_ofList, hread, words?_of_dropWhile_eq_nil rfl, Option.map_some,
    List.append_nil]

end Json

end PagePreview
