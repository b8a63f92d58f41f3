/-
PagePreview.Proofs.Source.Walk — induction over a token list in the steps
in which it is read.

The reading of a document and its analysis both go over the tokens call by
call, and token by token where no call starts. `walk_induction` is the
induction along these steps, so that a property of either pass, or of both
side by side, is proved with one case for each kind of step.

A call whose block is passed over as a whole continues somewhere behind the
opening brace. For this reason the case of a block comes with its
hypothesis for every list that is not longer than what follows the brace.

* `CallSite.exists_written` — a call that is read is read off its own words.
* `walk_induction` — the induction.
-/
import Mathlib
import PagePreview.Source.CallSite
import PagePreview.Vocabulary

namespace PagePreview

/-! ## What starts a call -/

theorem CallSite.read?_nil : CallSite.read? [] = none := rfl

/-- No call starts with a punctuation character. -/
theorem CallSite.read?_punct (c : Char) (span : Span) (rest : List Token) :
    CallSite.read? (⟨.punct c, span⟩ :: rest) = none := rfl

/-- The call stands for a node: it is no property call. -/
def CallSite.IsElement (call : CallSite) : Prop :=
  ∀ p, Call.resolve call.name ≠ .property p

theorem Token.eq_punct_of_isPunct {t : Token} {c : Char} (h : t.isPunct c = true) :
    t = ⟨.punct c, t.span⟩ := by
  obtain ⟨lexeme, span⟩ := t
  obtain rfl : lexeme = .punct c := by simpa [Token.isPunct] using h
  rfl

/-- The tokens from the name to the closing parenthesis, or to the end where
there is none. -/
def CallSite.written (call : CallSite) (paren : Span) : List Token :=
  ⟨.ident call.name, call.nameSpan⟩ :: ⟨.punct '(', paren⟩ ::
    (call.arguments ++ (call.closing.map (Token.mk (.punct ')'))).toList)

/-- A call is read off its own tokens. Nothing is behind a call that is not
closed. -/
theorem CallSite.read?_written {call : CallSite} (paren : Span) {after : List Token}
    (hopen : ∀ t ∈ call.arguments, t.isPunct ')' = false)
    (hend : call.closing = none → after = []) :
    read? (call.written paren ++ after) = some (call, dropSemicolon after) := by
  obtain ⟨name, nameSpan, arguments, closing⟩ := call
  have hinside : ∀ t ∈ arguments, (!t.isPunct ')') = true := fun t ht => by simp [hopen t ht]
  cases closing with
  | none =>
    obtain rfl := hend rfl
    have htake := List.takeWhile_eq_self_iff.mpr hinside
    have hdrop := List.dropWhile_eq_nil_iff.mpr hinside
    simp [written, read?, htake, hdrop, dropSemicolon]
  | some close =>
    have hclose : (!Token.isPunct ⟨.punct ')', close⟩ ')') = false := rfl
    simp only [written, Option.map_some, Option.toList_some, List.cons_append, List.append_assoc,
      List.nil_append, read?]
    rw [List.takeWhile_append_of_pos hinside, List.dropWhile_append_of_pos hinside]
    simp [hclose]

/-- Every call that is read is read off its own tokens. -/
theorem CallSite.exists_written {ts rest : List Token} {call : CallSite}
    (h : read? ts = some (call, rest)) :
    ∃ paren after, ts = call.written paren ++ after ∧ rest = dropSemicolon after ∧
      (call.closing = none → after = []) ∧ ∀ t ∈ call.arguments, t.isPunct ')' = false := by
  unfold read? at h
  split at h
  · next name nameSpan paren inside =>
    have hinside := List.takeWhile_append_dropWhile (p := (!Token.isPunct · ')')) (l := inside)
    have hopen : ∀ t ∈ inside.takeWhile (!·.isPunct ')'), t.isPunct ')' = false :=
      fun t ht => by simpa using List.mem_takeWhile_imp ht
    split at h
    · next hclose =>
      obtain ⟨rfl, rfl⟩ := Prod.mk.inj (Option.some.inj h)
      rw [hclose, List.append_nil] at hinside
      exact ⟨paren, [], by simp [written, hinside], rfl, fun _ => rfl, hopen⟩
    · next close after hclose =>
      obtain ⟨rfl, rfl⟩ := Prod.mk.inj (Option.some.inj h)
      have hhead := List.head?_dropWhile_not (!Token.isPunct · ')') inside
      rw [hclose] at hhead hinside
      have hpunct : close = ⟨.punct ')', close.span⟩ :=
        Token.eq_punct_of_isPunct (by simpa using hhead)
      refine ⟨paren, after, ?_, rfl, nofun, hopen⟩
      rw [written, Option.map_some, Option.toList_some, ← hpunct]
      simp [hinside]
  · exact nomatch h

theorem CallSite.dropSemicolon_suffix (ts : List Token) : dropSemicolon ts <:+ ts := by
  cases ts with
  | nil => exact List.suffix_rfl
  | cons t rest =>
    rw [dropSemicolon]
    split
    · exact List.suffix_cons t rest
    · exact List.suffix_rfl

/-- What follows a call are the last tokens. -/
theorem CallSite.read?_suffix {ts rest : List Token} {call : CallSite}
    (h : read? ts = some (call, rest)) : rest <:+ ts := by
  obtain ⟨paren, after, rfl, rfl, -, -⟩ := exists_written h
  exact (dropSemicolon_suffix after).trans (List.suffix_append _ _)

theorem openBlock?_suffix {ts inner : List Token} {brace : Span}
    (h : openBlock? ts = some (brace, inner)) : inner <:+ ts := by
  rw [openBlock?_eq_some_iff.mp h]
  exact List.suffix_cons _ inner

theorem CallSite.rest_eq_nil {ts rest : List Token} {call : CallSite}
    (h : read? ts = some (call, rest)) (hopen : call.closing = none) : rest = [] := by
  obtain ⟨paren, after, -, rfl, hend, -⟩ := exists_written h
  rw [hend hopen]
  rfl

/-- The first text of a call is one of its words. -/
theorem CallSite.mem_written_of_firstText? {call : CallSite} (paren : Span) {text : String}
    {s : Span} (h : call.firstText? = some (text, s)) :
    ⟨.str text, s⟩ ∈ call.written paren := by
  obtain ⟨⟨lexeme, span⟩, ht, htext⟩ := List.exists_of_findSome?_eq_some h
  cases lexeme with
  | str found =>
    obtain ⟨rfl, rfl⟩ := Prod.mk.inj (Option.some.inj htext)
    exact List.mem_cons_of_mem _ (List.mem_cons_of_mem _ (List.mem_append_left _ ht))
  | ident name => exact nomatch htext
  | punct c => exact nomatch htext

/-- To end the source where the call ends makes no difference to its range. -/
theorem CallSite.span_stop (call : CallSite) (sourceEnd : Nat) :
    call.span (call.span sourceEnd).stop = call.span sourceEnd := by
  obtain ⟨name, nameSpan, arguments, closing⟩ := call
  cases closing <;> rfl

theorem openBlock?_eq_none_iff {ts : List Token} :
    openBlock? ts = none ↔ ∀ t ∈ ts.head?, t.isPunct '{' = false := by
  cases ts with
  | nil => simp [openBlock?]
  | cons t rest => simp [openBlock?]

/-! ## The steps -/

theorem walk_induction {motive : List Token → Prop}
    (nil : motive [])
    (property : ∀ ts p call rest, CallSite.read? ts = some (call, rest) →
      Call.resolve call.name = .property p → motive rest → motive ts)
    (leaf : ∀ ts call rest, CallSite.read? ts = some (call, rest) → call.IsElement →
      openBlock? rest = none → motive rest → motive ts)
    (block : ∀ ts call rest brace inner, CallSite.read? ts = some (call, rest) →
      call.IsElement → openBlock? rest = some (brace, inner) →
      (∀ us : List Token, us.length ≤ inner.length → motive us) → motive ts)
    (opening : ∀ brace rest, motive rest → motive (⟨.punct '{', brace⟩ :: rest))
    (closing : ∀ brace rest, motive rest → motive (⟨.punct '}', brace⟩ :: rest))
    (other : ∀ t rest, CallSite.read? (t :: rest) = none → t.isPunct '{' = false →
      t.isPunct '}' = false → motive rest → motive (t :: rest))
    (ts : List Token) : motive ts := by
  induction hn : ts.length using Nat.strongRecOn generalizing ts with
  | ind n ih =>
    subst hn
    have shorter : ∀ us : List Token, us.length < ts.length → motive us :=
      fun us h => ih us.length h us rfl
    cases hread : CallSite.read? ts with
    | some read =>
      obtain ⟨call, rest⟩ := read
      have hrest := CallSite.length_read?_lt hread
      by_cases hp : ∃ p, Call.resolve call.name = .property p
      · obtain ⟨p, hp⟩ := hp
        exact property ts p call rest hread hp (shorter rest hrest)
      · have helement : call.IsElement := fun p h => hp ⟨p, h⟩
        cases hblock : openBlock? rest with
        | none => exact leaf ts call rest hread helement hblock (shorter rest hrest)
        | some opened =>
          obtain ⟨brace, inner⟩ := opened
          have hinner := length_openBlock?_lt hblock
          exact block ts call rest brace inner hread helement hblock
            fun us hus => shorter us (by omega)
    | none =>
      cases ts with
      | nil => exact nil
      | cons t rest =>
        have htail : motive rest := shorter rest (by simp)
        cases ho : t.isPunct '{' with
        | true =>
          rw [Token.eq_punct_of_isPunct ho]
          exact opening t.span rest htail
        | false =>
          cases hc : t.isPunct '}' with
          | true =>
            rw [Token.eq_punct_of_isPunct hc]
            exact closing t.span rest htail
          | false => exact other t rest hread ho hc htail

end PagePreview
