/-
PagePreview.Backend.Template — texts with placeholders.

There are five placeholders, each a name between `${` and `}`. A template
is read once from left to right; what a placeholder is replaced by is not
looked at again, and any other text stays as it is.

* `Context` — the values of a single call.
* `Placeholder` — the placeholders, their spelling and their values.
* `render` — a template with its placeholders replaced.
-/
import PagePreview.Number.Notation
import PagePreview.Text.Split

namespace PagePreview

/-- The values that an effect can refer to. -/
structure Context where
  /-- The value that was given to a key. -/
  val : String
  /-- The argument of a triggered event. -/
  arg : String
  /-- The key that was given a value. -/
  key : String
  deriving Repr, DecidableEq

namespace Context

/-- The context of the hook of a key that was given a value. -/
def ofUpdate (key val : String) : Context :=
  ⟨val, "", key⟩

/-- The context of the handler of a triggered event. -/
def ofTrigger (arg : String) : Context :=
  ⟨"", arg, ""⟩

end Context

inductive Placeholder
  | val
  | arg
  | key
  /-- The number of characters of the value. -/
  | len
  /-- The characters of the value from the last to the first. -/
  | reversed
  deriving Repr, DecidableEq

namespace Placeholder

def all : List Placeholder :=
  [val, arg, key, len, reversed]

def name : Placeholder → String
  | val => "val"
  | arg => "arg"
  | key => "key"
  | len => "len"
  | reversed => "reversed"

/-- The placeholder as it is written. -/
def spelling (p : Placeholder) : List Char :=
  '$' :: '{' :: (p.name.toList ++ ['}'])

def value (ctx : Context) : Placeholder → List Char
  | val => ctx.val.toList
  | arg => ctx.arg.toList
  | key => ctx.key.toList
  | len => Notation.natText ctx.val.toList.length
  | reversed => ctx.val.toList.reverse

theorem spelling_ne_nil (p : Placeholder) : p.spelling ≠ [] := by
  simp [spelling]

/-- The placeholder that a text starts with, and what follows it. -/
def split? (cs : List Char) : Option (Placeholder × List Char) :=
  all.findSome? fun p => (dropStart? p.spelling cs).map (p, ·)

theorem eq_append_of_split? {cs rest : List Char} {p : Placeholder}
    (h : split? cs = some (p, rest)) : cs = p.spelling ++ rest := by
  obtain ⟨q, _, hq⟩ := List.exists_of_findSome?_eq_some h
  obtain ⟨r, hr, heq⟩ := Option.map_eq_some_iff.mp hq
  simp only [Prod.mk.injEq] at heq
  rw [← heq.1, ← heq.2]
  exact dropStart?_eq_some_iff.mp hr

theorem length_split?_lt {cs rest : List Char} {p : Placeholder}
    (h : split? cs = some (p, rest)) : rest.length < cs.length := by
  rw [eq_append_of_split? h, List.length_append]
  have := List.length_pos_iff.mpr p.spelling_ne_nil
  omega

end Placeholder

namespace Template

/-- Replaces the placeholders of a template. -/
def fill (ctx : Context) (cs : List Char) : List Char :=
  match _h : Placeholder.split? cs with
  | some (p, rest) => p.value ctx ++ fill ctx rest
  | none =>
    match cs with
    | [] => []
    | c :: rest => c :: fill ctx rest
termination_by cs.length
decreasing_by
  · exact Placeholder.length_split?_lt _h
  · simp

def render (template : String) (ctx : Context) : String :=
  String.ofList (fill ctx template.toList)

end Template

end PagePreview
