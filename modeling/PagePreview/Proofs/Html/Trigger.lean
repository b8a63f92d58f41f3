/-
PagePreview.Proofs.Html.Trigger — the scripts of buttons.

A button with a handler has a script that calls `trigger` with the name of
the handler as a literal. The handler can be any text that is not empty,
and a reader of the page finds the script as it was written, with all
quotes and entities undone. So the page's runtime hears of the handler by
its name, with one exception: a name with a line feed or a carriage return
in it makes the literal, and with it the script, unreadable.

* `triggerArgument?` — what a script calls `trigger` with.
* `onClickScripts` — the scripts of the buttons on a page.
* `onClickScripts_parse` — which scripts there are, and what they call
  `trigger` with.
-/
import PagePreview.Proofs.Document.Print
import PagePreview.Proofs.Html.Seen
import PagePreview.Proofs.Text.ScriptLiteral

namespace PagePreview

open ScriptLiteral (units?)

/-! ## Calls of `trigger` -/

namespace Html

/-- The units of the argument of a script that is one call of `trigger`, with
a literal as its argument. -/
def triggerArgument? (script : String) : Option (List Nat) :=
  match (dropStart? "trigger(".toList script.toList).bind ScriptLiteral.split? with
  | some (units, [')']) => some units
  | _ => none

/-- A script calls `trigger` with the handler it was written for, and it
calls nothing if the handler is not in one line. -/
theorem triggerArgument?_triggerScript (handler : String) :
    triggerArgument? (triggerScript handler) =
      if '\n' ∈ handler.toList ∨ '\r' ∈ handler.toList then none
      else some (utf16 handler.toList) := by
  have hchars : (triggerScript handler).toList =
      "trigger(".toList ++ ('\'' :: (escapeScript handler).toList ++ '\'' :: [')']) := by
    simp [triggerScript]
  rw [triggerArgument?, dropStart?_eq_some_iff.mpr hchars, Option.bind_some,
    ScriptLiteral.split?_escaped]
  by_cases hbreak : '\n' ∈ handler.toList ∨ '\r' ∈ handler.toList
  · simp only [if_pos hbreak]
  · simp only [if_neg hbreak]

/-- A script calls `trigger` with no other text than its handler. -/
theorem triggerArgument?_eq_some_iff {handler s : String} :
    triggerArgument? (triggerScript handler) = some (utf16 s.toList) ↔
      s = handler ∧ '\n' ∉ handler.toList ∧ '\r' ∉ handler.toList := by
  rw [triggerArgument?_triggerScript]
  split
  next hbreak =>
    simp only [reduceCtorEq, false_iff]
    rintro ⟨-, hfeed, hreturn⟩
    exact hbreak.elim hfeed hreturn
  next hline =>
    constructor
    · intro h
      have hchars := utf16_injective (Option.some.inj h)
      exact ⟨String.toList_injective hchars.symm, not_or.mp hline⟩
    · rintro ⟨rfl, -⟩
      rfl

/-! ## Buttons on a page -/

/-- The scripts of the buttons that a reader sees. -/
def onClickScripts (seen : List Event) : List String :=
  seen.flatMap fun
    | .start tag attributes =>
      if tag = "button" then (attributes.filter (·.name = "onclick")).map (·.value) else []
    | _ => []

theorem mem_onClickScripts_iff {seen : List Event} {script : String} :
    script ∈ onClickScripts seen ↔
      ∃ attributes, .start "button" attributes ∈ seen ∧ ⟨"onclick", script⟩ ∈ attributes := by
  rw [onClickScripts, List.mem_flatMap]
  constructor
  · rintro ⟨e, he, hscript⟩
    cases e with
    | start tag attributes =>
      by_cases htag : tag = "button"
      · obtain ⟨a, ha, rfl⟩ : ∃ a ∈ attributes.filter (·.name = "onclick"), a.value = script := by
          simpa [htag] using hscript
        obtain ⟨ha, hname⟩ := List.mem_filter.mp ha
        obtain ⟨name, value⟩ := a
        obtain rfl : name = "onclick" := of_decide_eq_true hname
        exact ⟨attributes, htag ▸ he, ha⟩
      · simp [htag] at hscript
    | stop tag => simp at hscript
    | char c => simp at hscript
  · rintro ⟨attributes, he, ha⟩
    exact ⟨_, he, List.mem_map.mpr ⟨_, List.mem_filter.mpr ⟨ha, rfl⟩, rfl⟩⟩

section Tags

variable {tag : String} {attributes : List Attribute}

/-- A tag is that of a node, or of the notice in a node of unknown kind. -/
def OfNode (ns : List Node) (tag : String) (attributes : List Attribute) : Prop :=
  (∃ n ∈ ns, tag = n.kind.tag ∧ attributes = n.attributes) ∨ tag = "div"

theorem OfNode.mono {ns ns' : List Node} (h : OfNode ns tag attributes) (hsub : ns ⊆ ns') :
    OfNode ns' tag attributes :=
  h.imp_left fun ⟨n, hn, hseen⟩ => ⟨n, hsub hn, hseen⟩

theorem not_start_mem_chars {s : String} (h : .start tag attributes ∈ Node.chars s) : False := by
  simp [Node.chars] at h

theorem not_start_mem_ending {kind : NodeKind} (h : .start tag attributes ∈ Node.ending kind) :
    False := by
  unfold Node.ending at h
  split at h <;> simp at h

/-- The tags inside of an element are those of the children, and that of the
notice. -/
theorem start_mem_inside {n : Node} {children : List Event}
    (h : .start tag attributes ∈ n.inside children) :
    tag = "div" ∨ .start tag attributes ∈ children := by
  unfold Node.inside at h
  split at h
  next => exact (not_start_mem_chars h).elim
  next => exact (not_start_mem_chars h).elim
  next => exact nomatch h
  next => exact nomatch h
  next => exact nomatch h
  next =>
    rcases List.mem_cons.mp h with heq | h
    · exact .inl (Event.start.inj heq).1
    · rcases List.mem_append.mp h with h | h
      · exact (not_start_mem_chars h).elim
      · exact .inr ((List.mem_cons.mp h).resolve_left nofun)
  all_goals exact .inr h

mutual

/-- The tags that are seen of a node are those of it and its descendants. -/
theorem ofNode_of_mem_seen : ∀ n : Node,
    .start tag attributes ∈ n.seen → OfNode n.preorder tag attributes
  | ⟨kind, label, style, bind, onClick, children⟩, h => by
      rw [Node.preorder_eq]
      rw [Node.seen, List.mem_cons, List.mem_append] at h
      rcases h with heq | h | h
      · obtain ⟨rfl, rfl⟩ := Event.start.inj heq
        exact .inl ⟨_, List.mem_cons_self, rfl, rfl⟩
      · rcases start_mem_inside h with hdiv | h
        · exact .inr hdiv
        · exact (ofNode_of_mem_seenAll children h).mono (List.subset_cons_self ..)
      · exact (not_start_mem_ending h).elim

theorem ofNode_of_mem_seenAll : ∀ ns : List Node,
    .start tag attributes ∈ Node.seenAll ns → OfNode (ns.flatMap Node.preorder) tag attributes
  | [], h => nomatch h
  | n :: rest, h => by
      rw [List.flatMap_cons]
      rcases List.mem_append.mp h with h | h
      · exact (ofNode_of_mem_seen n h).mono (List.subset_append_left ..)
      · exact (ofNode_of_mem_seenAll rest h).mono (List.subset_append_right ..)

end

end Tags

theorem kind_eq_button {kind : NodeKind} (h : "button" = kind.tag) : kind = .button := by
  cases kind <;> simp [NodeKind.tag] at h ⊢

/-- The script of a button is written for its handler. -/
theorem exists_handler_of_mem_attributes {n : Node} (hkind : n.kind = .button) {script : String}
    (h : ⟨"onclick", script⟩ ∈ n.attributes) :
    ∃ handler, n.onClick = some handler ∧ handler ≠ "" ∧ script = triggerScript handler := by
  rw [Node.attributes_button n hkind] at h
  rcases List.mem_append.mp h with h | h
  · simp [styleOf, attribute?] at h
  · obtain ⟨handler, hhandler, rfl⟩ :
        ∃ handler, nonEmpty? n.onClick = some handler ∧ triggerScript handler = script := by
      simpa [attribute?] using h
    obtain ⟨hclick, hne⟩ := nonEmpty?_eq_some_iff.mp hhandler
    exact ⟨handler, hclick, hne, rfl⟩

end Html

/-! ## Documents -/

/-- The root of a document that is one button. -/
def Node.oneButton (handler : String) : Node :=
  { root with children := [{ bare .button with onClick := some handler }] }

theorem Node.wellFormed_oneButton {handler : String} (h : handler ≠ "") :
    (oneButton handler).WellFormed where
  kind := rfl
  label := rfl
  nodes := by
    have hbutton : FitsAt 1 { bare .button with onClick := some handler } :=
      ⟨by decide, nofun, nofun, nofun, by simpa using h, nofun⟩
    have hroot : FitsAt 0 (oneButton handler) :=
      ⟨by decide, nofun, nofun, nofun, nofun, nofun⟩
    refine throughout_iff.mpr ⟨hroot, ?_⟩
    intro child hchild
    rw [List.mem_singleton.mp hchild]
    exact throughout_iff.mpr ⟨hbutton, nofun⟩

namespace Html

open Document

/-- The scripts of the buttons on the page of a source. -/
def pageScripts (source : String) : List String :=
  onClickScripts (read (Markup.render (body (parse source).root)))

theorem pageScripts_eq (source : String) :
    pageScripts source = onClickScripts (Node.seenAll (parse source).root.children) := by
  rw [pageScripts, read_body, body, eventsAll_elements]

theorem onClickScripts_oneButton {handler : String} (h : handler ≠ "") :
    onClickScripts (Node.seenAll (Node.oneButton handler).children) = [triggerScript handler] := by
  have hclick : nonEmpty? (some handler) = some handler := nonEmpty?_eq_some_iff.mpr ⟨rfl, h⟩
  have hattributes (n : Node) (hkind : n.kind = .button) (hstyle : n.style = none)
      (honClick : n.onClick = some handler) :
      n.attributes = [⟨"onclick", triggerScript handler⟩] := by
    rw [Node.attributes_button n hkind, styleOf, hstyle, honClick, hclick]
    rfl
  simp [Node.oneButton, Node.bare, Node.seenAll, Node.seen, hattributes, onClickScripts,
    Node.inside, Node.chars, Node.ending, NodeKind.tag]

/-- Every text that is not empty is the handler of a button. -/
theorem exists_pageScripts_eq {handler : String} (h : handler ≠ "") :
    ∃ source, (parse source).problems = [] ∧ pageScripts source = [triggerScript handler] := by
  have hnote : isIdentifier "note" = true ∧ Call.resolve "note" = .unknown := by decide
  have hname : NamesUnknown fun _ => "note" := fun _ => hnote
  have hparse := parse_source hname (Node.wellFormed_oneButton h)
  refine ⟨_, by rw [hparse], ?_⟩
  rw [pageScripts_eq, hparse, onClickScripts_oneButton h]

/-- A script on the page of a source is that of a button, for its handler. -/
theorem exists_handler_of_mem_pageScripts {source script : String}
    (h : script ∈ pageScripts source) :
    ∃ n ∈ (parse source).root.preorder, n.kind = .button ∧
      ∃ handler, n.onClick = some handler ∧ handler ≠ "" ∧ script = triggerScript handler := by
  rw [pageScripts_eq] at h
  obtain ⟨attributes, htag, hscript⟩ := mem_onClickScripts_iff.mp h
  obtain ⟨n, hn, hkind, rfl⟩ := (ofNode_of_mem_seenAll _ htag).resolve_right (by decide)
  have hroot : n ∈ (parse source).root.preorder := by
    rw [Node.preorder_eq]
    exact List.mem_cons_of_mem _ hn
  have hbutton := kind_eq_button hkind
  exact ⟨n, hroot, hbutton, exists_handler_of_mem_attributes hbutton hscript⟩

/-- Between quotes, an escaped text is a literal for the text, unless there
is a line feed or a carriage return in it: then it is no literal. All texts
that are not empty are handlers of buttons, and the script of a button calls
`trigger` with the handler of the button and with nothing else, unless the
handler has a line feed or a carriage return. -/
theorem pageScripts_trigger (s : String) :
    (units? ("'" ++ escapeScript s ++ "'") =
      if '\n' ∈ s.toList ∨ '\r' ∈ s.toList then none else some (utf16 s.toList)) ∧
    (s ≠ "" → ∃ source, (parse source).problems = [] ∧
      pageScripts source = ["trigger('" ++ escapeScript s ++ "')"]) ∧
    ∀ source : String, ∀ script ∈ pageScripts source,
      ∃ n ∈ (parse source).root.preorder, n.kind = .button ∧
        ∃ handler, n.onClick = some handler ∧ handler ≠ "" ∧
          script = "trigger('" ++ escapeScript handler ++ "')" ∧
          (triggerArgument? script = some (utf16 s.toList) ↔
            s = handler ∧ '\n' ∉ handler.toList ∧ '\r' ∉ handler.toList) := by
  refine ⟨ScriptLiteral.units?_escaped s, exists_pageScripts_eq, ?_⟩
  intro source script hscript
  obtain ⟨n, hn, hkind, handler, hclick, hne, rfl⟩ := exists_handler_of_mem_pageScripts hscript
  exact ⟨n, hn, hkind, handler, hclick, hne, rfl, triggerArgument?_eq_some_iff⟩

/-- A button with quotes and a backslash in its handler. -/
def quoted : String := "wce_button() \x7b wce_on_click(\"it's\\\"x\\\\\"); \x7d"

theorem pageScripts_trigger_quoted :
    units? "'it\\'s\"x\\\\'" = some (utf16 "it's\"x\\".toList) ∧
      "trigger('it\\'s\"x\\\\')" ∈ pageScripts quoted ∧
      triggerArgument? "trigger('it\\'s\"x\\\\')" = some (utf16 "it's\"x\\".toList) := by
  have hescape : "'it\\'s\"x\\\\'" = "'" ++ escapeScript "it's\"x\\" ++ "'" := by
    decide +kernel
  have hscript : "trigger('it\\'s\"x\\\\')" ∈ pageScripts quoted := by
    have hscripts : pageScripts quoted = ["trigger('it\\'s\"x\\\\')"] := by cbv
    exact hscripts ▸ List.mem_singleton_self _
  have hnodes : (parse quoted).root.preorder =
      [⟨.container, none, none, none, none,
        [⟨.button, none, none, none, some "it's\"x\\", []⟩]⟩,
        ⟨.button, none, none, none, some "it's\"x\\", []⟩] := by
    cbv
  refine ⟨?_, hscript, ?_⟩
  · rw [hescape, (pageScripts_trigger _).1, if_neg (by decide)]
  · obtain ⟨n, hn, hkind, handler, hclick, -, -, hargument⟩ :=
      (pageScripts_trigger "it's\"x\\").2.2 quoted _ hscript
    rw [hnodes] at hn
    have hhandler : "it's\"x\\" = handler := by
      rcases List.mem_cons.mp hn with rfl | hn
      · exact absurd hkind (by decide)
      · rw [List.mem_singleton.mp hn] at hclick
        exact Option.some.inj hclick
    exact hargument.mpr ⟨hhandler, hhandler ▸ by decide⟩

/-- A line feed in a handler stays in the script, which then is no call. -/
theorem pageScripts_trigger_lineFeed :
    (parse "wce_button() \x7b wce_on_click(\"a\nb\"); \x7d").problems = [] ∧
      pageScripts "wce_button() \x7b wce_on_click(\"a\nb\"); \x7d" = ["trigger('a\nb')"] ∧
      units? ("'" ++ escapeScript "a\nb" ++ "'") = none ∧
      triggerArgument? "trigger('a\nb')" = none := by
  refine ⟨?_, ?_, ?_, ?_⟩ <;> cbv

end Html

end PagePreview
