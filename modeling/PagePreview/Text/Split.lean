/-
PagePreview.Text.Split — taking texts apart.

* `dropStart? start cs` — what follows `start` in a text that starts so.
* `splitFirst sep cs` — a text cut at the first separator, if it has one.
-/

namespace PagePreview

/-- What follows `start` in a text that starts with it. -/
def dropStart? : List Char → List Char → Option (List Char)
  | [], cs => some cs
  | _ :: _, [] => none
  | s :: start, c :: cs => if s = c then dropStart? start cs else none

theorem dropStart?_eq_some_iff {start cs rest : List Char} :
    dropStart? start cs = some rest ↔ cs = start ++ rest := by
  fun_induction dropStart? start cs <;> grind

theorem length_dropStart?_le {start cs rest : List Char} (h : dropStart? start cs = some rest) :
    rest.length ≤ cs.length := by
  rw [dropStart?_eq_some_iff.mp h]; simp

/-- The text before the first separator, and the text after it if there is
a separator. -/
def splitFirst (sep : Char) : List Char → List Char × Option (List Char)
  | [] => ([], none)
  | c :: rest =>
    if c = sep then ([], some rest)
    else
      let (before, after) := splitFirst sep rest
      (c :: before, after)

/-- A text is cut at the first separator. -/
theorem splitFirst_append {sep : Char} {before : List Char} (h : sep ∉ before)
    (after : List Char) : splitFirst sep (before ++ sep :: after) = (before, some after) := by
  induction before with
  | nil => simp [splitFirst]
  | cons c rest ih => simp only [List.cons_append, splitFirst]; grind

/-- A text without the separator is not cut. -/
theorem splitFirst_of_not_mem {sep : Char} {cs : List Char} (h : sep ∉ cs) :
    splitFirst sep cs = (cs, none) := by
  induction cs with
  | nil => rfl
  | cons c rest ih => simp only [splitFirst]; grind

end PagePreview
