/-
PagePreview.Proofs.Source.Relocate — words at other places.

To read a call is to look at words, not at where they stand. So words can be
moved to other places, by any function on offsets, before they are read or
afterwards.

* `Token.relocate`, `CallSite.relocate` — a word or a call whose offsets are
  others.
* `CallSite.read?_relocate` — reading and moving commute.
-/
import Mathlib
import PagePreview.Source.CallSite

namespace PagePreview

variable (f : Nat → Nat)

/-- The range with both ends moved. -/
def Span.relocate (s : Span) : Span :=
  ⟨f s.start, f s.stop⟩

def Token.relocate (t : Token) : Token :=
  ⟨t.lexeme, t.span.relocate f⟩

theorem openBlock?_relocate (ts : List Token) :
    openBlock? (ts.map (Token.relocate f)) =
      (openBlock? ts).map fun opened =>
        (opened.1.relocate f, opened.2.map (Token.relocate f)) := by
  cases ts with
  | nil => rfl
  | cons t rest =>
    show (if t.isPunct '{' then _ else _) = _
    rw [openBlock?]
    split <;> rfl

namespace CallSite

def relocate (call : CallSite) : CallSite where
  name := call.name
  nameSpan := call.nameSpan.relocate f
  arguments := call.arguments.map (Token.relocate f)
  closing := call.closing.map (Span.relocate f)

theorem dropSemicolon_relocate (ts : List Token) :
    dropSemicolon (ts.map (Token.relocate f)) = (dropSemicolon ts).map (Token.relocate f) := by
  cases ts with
  | nil => rfl
  | cons t rest =>
    show (if t.isPunct ';' then _ else _) = _
    rw [dropSemicolon]
    split <;> rfl

theorem label?_relocate (call : CallSite) : (call.relocate f).label? = call.label? := by
  show ((call.arguments.map (Token.relocate f)).find? _).bind _ = _
  rw [List.find?_map, Option.bind_map]
  rfl

theorem firstText?_relocate (call : CallSite) :
    (call.relocate f).firstText? =
      call.firstText?.map fun value => (value.1, value.2.relocate f) := by
  show (call.arguments.map (Token.relocate f)).findSome? _ = _
  rw [List.findSome?_map, firstText?, List.map_findSome?]
  congr 1
  funext t
  obtain ⟨lexeme, span⟩ := t
  cases lexeme <;> rfl

theorem span_relocate (call : CallSite) (sourceEnd : Nat) :
    (call.relocate f).span (f sourceEnd) = (call.span sourceEnd).relocate f := by
  obtain ⟨name, nameSpan, arguments, closing⟩ := call
  cases closing <;> rfl

theorem read?_relocate (ts : List Token) :
    read? (ts.map (Token.relocate f)) =
      (read? ts).map fun r => (r.1.relocate f, r.2.map (Token.relocate f)) := by
  have hsplit (rest : List Token) :
      (rest.map (Token.relocate f)).takeWhile (!·.isPunct ')') =
          (rest.takeWhile (!·.isPunct ')')).map (Token.relocate f) ∧
        (rest.map (Token.relocate f)).dropWhile (!·.isPunct ')') =
          (rest.dropWhile (!·.isPunct ')')).map (Token.relocate f) := by
    rw [List.takeWhile_map, List.dropWhile_map]
    exact ⟨rfl, rfl⟩
  fun_cases read? ts with
  | case1 name nameSpan paren rest arguments hclose =>
    show read? (⟨.ident name, nameSpan.relocate f⟩ :: ⟨.punct '(', paren.relocate f⟩ ::
      rest.map (Token.relocate f)) = _
    simp only [read?, hsplit, hclose]
    rfl
  | case2 name nameSpan paren rest arguments close after hclose =>
    show read? (⟨.ident name, nameSpan.relocate f⟩ :: ⟨.punct '(', paren.relocate f⟩ ::
      rest.map (Token.relocate f)) = _
    simp only [read?, hsplit, hclose, List.map_cons, dropSemicolon_relocate]
    rfl
  | case3 _ hother =>
    unfold read?
    split
    · next heq =>
      obtain ⟨t, ts', rfl, ht, hts'⟩ := List.map_eq_cons_iff.mp heq
      obtain ⟨t', rest, rfl, ht', -⟩ := List.map_eq_cons_iff.mp hts'
      obtain ⟨lexeme, span⟩ := t
      obtain ⟨lexeme', span'⟩ := t'
      obtain rfl := (Token.mk.inj ht).1
      obtain rfl := (Token.mk.inj ht').1
      exact absurd rfl (hother _ _ _ _)
    · rfl

end CallSite

end PagePreview
