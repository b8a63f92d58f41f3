/-
PagePreview.Proofs.Backend.Template — a template is read once.

A placeholder begins with a dollar sign and holds no other one, so no two
of them overlap, and where a template is cut does not matter unless the cut
goes through a placeholder. What the parts of a template are is settled
before any of them is replaced: the values are never looked at.

* `Template.parts` — the characters and placeholders of a template.
* `Template.fill_eq_flatMap` — each part is replaced on its own.
* `Template.Straddles` — a placeholder lies across a cut.
* `Template.fill_append` — a template that is cut elsewhere is filled in
  two.
* `Template.render_single_pass` — what all of this says of texts.
-/
import PagePreview.Backend.Template
import PagePreview.Proofs.Number.Notation

namespace PagePreview

namespace Placeholder

/-- No placeholder is the beginning of another. -/
theorem eq_of_spelling_begins {p q : Placeholder} (h : p.spelling <+: q.spelling) : p = q := by
  revert h
  cases p <;> cases q <;> decide

theorem split?_eq_some_iff {cs rest : List Char} {p : Placeholder} :
    split? cs = some (p, rest) ↔ cs = p.spelling ++ rest := by
  constructor
  · exact eq_append_of_split?
  · intro h
    have hfound : (split? cs).isSome := by
      refine List.findSome?_isSome_iff.mpr ⟨p, by cases p <;> decide, ?_⟩
      rw [dropStart?_eq_some_iff.mpr h]
      rfl
    obtain ⟨⟨q, after⟩, hq⟩ := Option.isSome_iff_exists.mp hfound
    have heq := eq_append_of_split? hq
    -- Of two placeholders at one place, one is the beginning of the other.
    have hsame : p = q := by
      have hp : p.spelling <+: cs := ⟨rest, h.symm⟩
      have hq' : q.spelling <+: cs := ⟨after, heq.symm⟩
      rcases List.prefix_or_prefix_of_prefix hp hq' with hpq | hqp
      · exact eq_of_spelling_begins hpq
      · exact (eq_of_spelling_begins hqp).symm
    subst hsame
    rw [hq, List.append_cancel_left (h.symm.trans heq)]

theorem split?_eq_none_iff {cs : List Char} :
    split? cs = none ↔ ∀ p : Placeholder, ¬p.spelling <+: cs := by
  rw [Option.eq_none_iff_forall_ne_some]
  constructor
  · rintro h p ⟨rest, hrest⟩
    exact h (p, rest) (split?_eq_some_iff.mpr hrest.symm)
  · rintro h ⟨p, rest⟩ hsome
    exact h p ⟨rest, (split?_eq_some_iff.mp hsome).symm⟩

end Placeholder

namespace Template

/-! ## The parts of a template -/

/-- A part of a template. -/
inductive Part
  | char (c : Char)
  | placeholder (p : Placeholder)
  deriving Repr, DecidableEq

namespace Part

/-- A part as it is written. -/
def written : Part → List Char
  | char c => [c]
  | placeholder p => p.spelling

/-- What stands in the place of a part. -/
def text (ctx : Context) : Part → List Char
  | char c => [c]
  | placeholder p => p.value ctx

end Part

/-- The parts of a template, in order. -/
def parts (cs : List Char) : List Part :=
  match _h : Placeholder.split? cs with
  | some (p, rest) => .placeholder p :: parts rest
  | none =>
    match cs with
    | [] => []
    | c :: rest => .char c :: parts rest
termination_by cs.length
decreasing_by
  · exact Placeholder.length_split?_lt _h
  · simp

theorem parts_nil : parts [] = [] := by
  rw [parts]
  rfl

theorem parts_spelling (p : Placeholder) (rest : List Char) :
    parts (p.spelling ++ rest) = .placeholder p :: parts rest := by
  have hsplit := Placeholder.split?_eq_some_iff.mpr (rfl : p.spelling ++ rest = p.spelling ++ rest)
  rw [parts]
  split <;> simp_all

theorem parts_char {c : Char} {rest : List Char}
    (h : ∀ p : Placeholder, ¬p.spelling <+: c :: rest) :
    parts (c :: rest) = .char c :: parts rest := by
  have hsplit := Placeholder.split?_eq_none_iff.mpr h
  rw [parts]
  split <;> simp_all

theorem fill_nil (ctx : Context) : fill ctx [] = [] := by
  rw [fill]
  rfl

theorem fill_spelling (ctx : Context) (p : Placeholder) (rest : List Char) :
    fill ctx (p.spelling ++ rest) = p.value ctx ++ fill ctx rest := by
  have hsplit := Placeholder.split?_eq_some_iff.mpr (rfl : p.spelling ++ rest = p.spelling ++ rest)
  rw [fill]
  split <;> simp_all

theorem fill_char (ctx : Context) {c : Char} {rest : List Char}
    (h : ∀ p : Placeholder, ¬p.spelling <+: c :: rest) :
    fill ctx (c :: rest) = c :: fill ctx rest := by
  have hsplit := Placeholder.split?_eq_none_iff.mpr h
  rw [fill]
  split <;> simp_all

/-- A template is empty, or begins with a placeholder, or begins with a
character at which no placeholder begins. -/
theorem template_induction {motive : List Char → Prop} (nil : motive [])
    (placeholder : ∀ p : Placeholder, ∀ rest, motive rest → motive (p.spelling ++ rest))
    (char : ∀ c rest, (∀ p : Placeholder, ¬p.spelling <+: c :: rest) → motive rest →
      motive (c :: rest)) (cs : List Char) : motive cs := by
  fun_induction parts cs with
  | case1 cs p rest hsplit ih =>
    rw [Placeholder.split?_eq_some_iff.mp hsplit]
    exact placeholder p rest ih
  | case2 => exact nil
  | case3 c rest hsplit ih => exact char c rest (Placeholder.split?_eq_none_iff.mp hsplit) ih

/-- The parts are the whole template. -/
theorem flatMap_written_parts (cs : List Char) : (parts cs).flatMap Part.written = cs := by
  induction cs using template_induction with
  | nil => rw [parts_nil, List.flatMap_nil]
  | placeholder p rest ih => rw [parts_spelling, List.flatMap_cons, ih, Part.written]
  | char c rest h ih => rw [parts_char h, List.flatMap_cons, ih, Part.written, List.singleton_append]

/-- Each part is replaced on its own. -/
theorem fill_eq_flatMap (ctx : Context) (cs : List Char) :
    fill ctx cs = (parts cs).flatMap (Part.text ctx) := by
  induction cs using template_induction with
  | nil => rw [fill_nil, parts_nil, List.flatMap_nil]
  | placeholder p rest ih => rw [fill_spelling, parts_spelling, List.flatMap_cons, ih, Part.text]
  | char c rest h ih =>
    rw [fill_char ctx h, parts_char h, List.flatMap_cons, ih, Part.text, List.singleton_append]

/-- A text in which no placeholder stands has its characters as parts. -/
theorem parts_of_not_infix {cs : List Char} (h : ∀ p : Placeholder, ¬p.spelling <:+: cs) :
    parts cs = cs.map .char := by
  induction cs with
  | nil => rw [parts_nil, List.map_nil]
  | cons c rest ih =>
    have hrest : ∀ p : Placeholder, ¬p.spelling <:+: rest := by
      intro p hp
      exact h p (hp.trans (List.suffix_cons c rest).isInfix)
    rw [parts_char fun p hp => h p hp.isInfix, ih hrest, List.map_cons]

/-! ## A template that is cut in two -/

/-- A placeholder lies across the cut between two texts: it begins in the
first and ends in the second. -/
def Straddles (p : Placeholder) (s t : List Char) : Prop :=
  ∃ i < p.spelling.length, 0 < i ∧ p.spelling.take i <:+ s ∧ p.spelling.drop i <+: t

instance (p : Placeholder) (s t : List Char) : Decidable (Straddles p s t) :=
  inferInstanceAs (Decidable (∃ i < p.spelling.length, _))

theorem Straddles.mono {p : Placeholder} {s s' t : List Char} (h : Straddles p s t)
    (hs : s <:+ s') : Straddles p s' t := by
  obtain ⟨i, hi, hpos, hstart, hend⟩ := h
  exact ⟨i, hi, hpos, hstart.trans hs, hend⟩

/-- A placeholder at the start of a text that is cut is at the start of the
first half, if it does not lie across the cut. -/
theorem spelling_begins_of_append {p : Placeholder} {s t : List Char} (hs : s ≠ [])
    (hcut : ¬Straddles p s t) (h : p.spelling <+: s ++ t) : p.spelling <+: s := by
  obtain ⟨rest, hrest⟩ := h
  rcases List.append_eq_append_iff.mp hrest with ⟨as, rfl, -⟩ | ⟨bs, hspelling, hbs⟩
  · exact List.prefix_append _ as
  · cases bs with
    | nil =>
      rw [hspelling, List.append_nil]
    | cons b bs =>
      refine absurd ⟨s.length, ?_, List.length_pos_iff.mpr hs, ?_, ?_⟩ hcut
      · simp [hspelling]
      · simp [hspelling]
      · simp [hspelling, hbs]

/-- A template that is not cut through a placeholder has the parts of its
halves. -/
theorem parts_append {s t : List Char} (h : ∀ p, ¬Straddles p s t) :
    parts (s ++ t) = parts s ++ parts t := by
  induction s using template_induction with
  | nil => rw [parts_nil, List.nil_append, List.nil_append]
  | placeholder p rest ih =>
    have hrest : ∀ q, ¬Straddles q rest t := by
      intro q hq
      exact h q (hq.mono (List.suffix_append p.spelling rest))
    rw [List.append_assoc, parts_spelling, parts_spelling, ih hrest, List.cons_append]
  | char c rest hc ih =>
    have hrest : ∀ q, ¬Straddles q rest t := by
      intro q hq
      exact h q (hq.mono (List.suffix_cons c rest))
    have hchar : ∀ p : Placeholder, ¬p.spelling <+: c :: (rest ++ t) := by
      intro p hp
      exact hc p (spelling_begins_of_append (List.cons_ne_nil c rest) (h p) hp)
    rw [List.cons_append, parts_char hchar, parts_char hc, ih hrest, List.cons_append]

theorem fill_append (ctx : Context) {s t : List Char} (h : ∀ p, ¬Straddles p s t) :
    fill ctx (s ++ t) = fill ctx s ++ fill ctx t := by
  rw [fill_eq_flatMap, fill_eq_flatMap, fill_eq_flatMap, parts_append h, List.flatMap_append]

/-- A placeholder alone is replaced by its value. -/
theorem fill_placeholder (ctx : Context) (p : Placeholder) :
    fill ctx p.spelling = p.value ctx := by
  have hfill := fill_spelling ctx p []
  rwa [List.append_nil, fill_nil, List.append_nil] at hfill

theorem fill_of_not_infix (ctx : Context) {cs : List Char}
    (h : ∀ p : Placeholder, ¬p.spelling <:+: cs) : fill ctx cs = cs := by
  rw [fill_eq_flatMap, parts_of_not_infix h, List.flatMap_map]
  exact List.flatMap_singleton' cs

/-! ## Templates as texts -/

/-- A template is filled part by part. It may be cut wherever no placeholder
lies across the cut; a placeholder alone becomes its value; a text without
placeholders stays as it is; and what the parts are is settled by the
template, whatever the values are. -/
theorem render_single_pass (ctx : Context) :
    (∀ s t : String, (∀ p, ¬Straddles p s.toList t.toList) →
      render (s ++ t) ctx = render s ctx ++ render t ctx) ∧
    (render "$\x7bval\x7d" ctx = ctx.val ∧ render "$\x7barg\x7d" ctx = ctx.arg ∧
      render "$\x7bkey\x7d" ctx = ctx.key ∧
      render "$\x7blen\x7d" ctx = toString ctx.val.length ∧
      render "$\x7breversed\x7d" ctx = String.ofList ctx.val.toList.reverse) ∧
    (∀ s : String, (∀ p : Placeholder, ¬p.spelling <:+: s.toList) → render s ctx = s) ∧
    ∀ s : String, (parts s.toList).flatMap Part.written = s.toList ∧
      render s ctx = String.ofList ((parts s.toList).flatMap (Part.text ctx)) := by
  have halone (p : Placeholder) : render (String.ofList p.spelling) ctx =
      String.ofList (p.value ctx) := by
    rw [render, String.toList_ofList, fill_placeholder]
  refine ⟨?_, ⟨?_, ?_, ?_, ?_, ?_⟩, ?_, ?_⟩
  · intro s t h
    rw [render, String.toList_append, fill_append ctx h, String.ofList_append]
    rfl
  · exact (halone .val).trans String.ofList_toList
  · exact (halone .arg).trans String.ofList_toList
  · exact (halone .key).trans String.ofList_toList
  · refine (halone .len).trans ?_
    rw [Placeholder.value, Notation.natText_eq_toDigits, String.length_toList]
    rfl
  · exact halone .reversed
  · intro s h
    rw [render, fill_of_not_infix ctx h, String.ofList_toList]
  · intro s
    exact ⟨flatMap_written_parts s.toList, congrArg String.ofList (fill_eq_flatMap ctx s.toList)⟩

/-- A value that looks like a placeholder, behind a dollar sign of the
template, and a placeholder that is not finished. -/
theorem render_single_pass_nested :
    (∀ p, ¬Straddles p "$".toList "$\x7bval\x7d".toList) ∧
      (∀ p : Placeholder, ¬p.spelling <:+: "$\x7bval".toList) ∧
      render ("$" ++ "$\x7bval\x7d") ⟨"\x7barg\x7d", "x", ""⟩ = "$\x7barg\x7d" ∧
      render "$\x7bval" ⟨"\x7barg\x7d", "x", ""⟩ = "$\x7bval" := by
  have hcut : ∀ p, ¬Straddles p "$".toList "$\x7bval\x7d".toList := by
    intro p
    cases p <;> decide
  have hdollar : ∀ p : Placeholder, ¬p.spelling <:+: "$".toList := by
    intro p
    cases p <;> decide
  have hopen : ∀ p : Placeholder, ¬p.spelling <:+: "$\x7bval".toList := by
    intro p
    cases p <;> decide
  obtain ⟨happend, ⟨hval, -⟩, hplain, -⟩ := render_single_pass ⟨"\x7barg\x7d", "x", ""⟩
  refine ⟨hcut, hopen, ?_, hplain _ hopen⟩
  rw [happend _ _ hcut, hplain _ hdollar, hval]
  rfl

end Template

end PagePreview
