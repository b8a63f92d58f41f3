/-
PagePreview.Proofs.Backend.ScriptTag — where the script of a configuration
ends.

The texts of a configuration may hold anything. The guard against closing
tags leaves no start of a closing tag in the script, so none of the texts
closes it. But a text may start a script in a comment, and then the page
that follows is a part of the script.

* `not_closingStart_infix_guardClosingTags` — what the guard is for.
* `Bootstrap.scriptContent` — what stands between the two tags.
* `Bootstrap.element?_scriptTag` — the element ends at its own closing tag
  unless its content starts a script in a comment.
-/
import PagePreview.Proofs.Html.ScriptData
import PagePreview.Proofs.Json.Guard

namespace PagePreview

namespace Bootstrap

open Html

/-! ## The guard -/

/-- No start of a closing tag is left. -/
theorem not_closingStart_infix_guardClosingTags (cs : List Char) :
    ¬Script.closingStart <:+: guardClosingTags cs := by
  induction cs using guardClosingTags.induct with
  | case1 rest ih => simpa [guardClosingTags, Script.closingStart, List.infix_cons_iff] using ih
  | case2 c rest hne ih =>
    rw [guardClosingTags]
    · intro hin
      rcases List.infix_cons_iff.mp hin with hfront | hrest
      · obtain ⟨rfl, hslash⟩ := List.cons_prefix_cons.mp hfront
        cases rest with
        | nil => simp [guardClosingTags] at hslash
        | cons d rest =>
          obtain ⟨rest', hhead⟩ := Json.guardClosingTags_head d rest
          rw [hhead] at hslash
          exact hne rest rfl (by rw [(List.cons_prefix_cons.mp hslash).1])
      · exact ih hrest
    · exact hne
  | case3 => simp [guardClosingTags, Script.closingStart]

theorem closingStart_infix_append {before : List Char} (h : '<' ∉ before) {cs : List Char}
    (hin : Script.closingStart <:+: before ++ cs) : Script.closingStart <:+: cs := by
  induction before with
  | nil => exact hin
  | cons c before ih =>
    rw [List.mem_cons, not_or] at h
    rcases List.infix_cons_iff.mp hin with hfront | hrest
    · exact absurd (List.cons_prefix_cons.mp hfront).1 h.1
    · exact ih h.2 hrest

theorem closingStart_infix_concat {c : Char} (hc : c ≠ '/') {cs : List Char}
    (hin : Script.closingStart <:+: cs ++ [c]) : Script.closingStart <:+: cs := by
  rcases List.infix_concat_iff.mp hin with hsuffix | hrest
  · obtain ⟨before, hbefore⟩ := hsuffix
    have hlast := congrArg List.getLast? hbefore
    simp [Script.closingStart] at hlast
    exact absurd hlast.symm hc
  · exact hrest

/-! ## The script -/

/-- What stands between the tags of the script. -/
def scriptContent (b : Bootstrap) : String :=
  "window." ++ globalName ++ " = " ++ b.inlineJson ++ ";"

theorem scriptTag_eq (b : Bootstrap) :
    b.scriptTag = "<script>" ++ b.scriptContent ++ "</script>" := by
  have hopening : "<script>window." = "<script>" ++ "window." := rfl
  have hending : ";</script>" = ";" ++ "</script>" := rfl
  unfold scriptTag scriptContent
  generalize b.inlineJson = json
  rw [hopening, hending]
  simp only [String.append_assoc]

theorem not_closingStart_infix_scriptContent (b : Bootstrap) :
    ¬Script.closingStart <:+: b.scriptContent.toList := by
  intro hin
  have hsplit : b.scriptContent.toList =
      ("window." ++ globalName ++ " = ").toList ++
        (guardClosingTags b.toJson.write ++ [';']) := by
    simp [scriptContent, inlineJson]
  rw [hsplit] at hin
  have hjson := closingStart_infix_concat (by decide)
    (closingStart_infix_append (by decide +kernel) hin)
  exact not_closingStart_infix_guardClosingTags _ hjson

/-- The script of a configuration, with any page behind it. A reader finds
the content of the script up to its own closing tag exactly if the content
does not start a script in a comment that it leaves open. Otherwise the
reader goes on into the page, and if nothing follows finds no end. -/
theorem element?_scriptTag (b : Bootstrap) :
    b.scriptTag = "<script>" ++ b.scriptContent ++ "</script>" ∧
      (∀ page : List Char,
        Script.element? (b.scriptContent.toList ++ ("</script>".toList ++ page)) =
            some (b.scriptContent.toList, '>' :: page) ↔
          ¬Script.LeavesNested b.scriptContent.toList) ∧
      (Script.LeavesNested b.scriptContent.toList →
        Script.element? (b.scriptContent.toList ++ "</script>".toList) = none) := by
  have hclosing := b.not_closingStart_infix_scriptContent
  refine ⟨b.scriptTag_eq, ?_, ?_⟩
  · intro page
    constructor
    · intro h hleaves
      obtain ⟨s, hs, heq⟩ :=
        Option.map_eq_some_iff.mp ((Script.element?_nested hclosing hleaves page).symm.trans h)
      -- What follows the end that is found is shorter than the page.
      have hlength := ScriptReader.length_split?_le hs
      rw [(Prod.mk.inj heq).2, List.length_cons] at hlength
      omega
    · intro h
      exact Script.element?_closed hclosing h page
  · intro hleaves
    exact Script.element?_nested hclosing hleaves []

/-- A text of one value that swallows the page. -/
theorem element?_scriptTag_commentedScript :
    parse? "\x7b\"initialData\":\x7b\"k\":\"<!--<script>\"\x7d\x7d" =
        some ({ empty with initialData := Table.ofList [("k", "<!--<script>")] }, []) ∧
      Script.element? ((scriptTag
        { empty with initialData := Table.ofList [("k", "<!--<script>")] }).toList.drop 8 ++
          "<p>page</p>".toList) = none := by
  have hwords : Json.words? "\x7b\"initialData\":\x7b\"k\":\"<!--<script>\"\x7d\x7d".toList =
      some [.openObject, .string (some "initialData"), .colon, .openObject, .string (some "k"),
        .colon, .string (some "<!--<script>"), .closeObject, .closeObject] := by
    decide +kernel
  constructor
  · rw [parse?, Json.parse?, Json.Written.parse?, hwords]
    rfl
  · decide +kernel

end Bootstrap

end PagePreview
