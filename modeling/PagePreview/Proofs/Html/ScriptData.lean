/-
PagePreview.Proofs.Html.ScriptData — where a script element ends.

A reader of a page does not know the language of a script. It goes through
the text character by character and looks for the tag that closes the
element, with one exception. In a comment a further script element may be
started, and then the next closing tag is taken for the end of that one.

* `ScriptReader.step` — what one character does, as the tokenization of
  script data has it.
* `Script.element?` — the content of a script element, and what follows the
  name of the tag that closes it.
* `Script.LeavesNested` — a text that starts a script element in a comment
  and does not end the comment. This is said without the reader.
* `ScriptReader.exists_step` — how a character changes the place.
* `ScriptReader.nested_iff_leavesNested` — in a text without any start of a
  closing tag, such texts are exactly those that leave the reader in a
  nested element.
* `Script.element?_closed`, `Script.element?_nested` — where the reader finds
  the end of the element, then and otherwise.
-/
import Mathlib

namespace PagePreview

namespace Html

/-! ## Tags -/

namespace Script

/-- A character that ends the name of a tag. Line ends of every sort count
as white space. -/
def isDelimiter (c : Char) : Bool :=
  c ∈ ['\t', '\n', '\x0c', '\r', ' ', '/', '>']

/-- The name of a tag is that of a script, and it ends here. -/
def isName (name : List Char) (delimiter : Char) : Bool :=
  isDelimiter delimiter && name.map Char.toLower == "script".toList

def commentStart : List Char := ['<', '!', '-', '-']

def commentEnd : List Char := ['-', '-', '>']

def closingStart : List Char := ['<', '/']

/-- The tag that closes a script element, up to the end of its name. -/
def closingTag : List Char := closingStart ++ "script".toList

/-- A tag in the text starts a script. -/
def Starts (cs : List Char) : Prop :=
  ∃ name delimiter, isName name delimiter = true ∧ '<' :: (name ++ [delimiter]) <:+: cs

/-- The text starts a script in a comment that it does not end. The dashes
that start a comment may be those of its end. -/
def LeavesNested (cs : List Char) : Prop :=
  ∃ before after, cs = before ++ (commentStart ++ after) ∧
    ¬commentEnd <:+: ['-', '-'] ++ after ∧ Starts after

theorem Starts.mono {cs cs' : List Char} (h : Starts cs) (hin : cs <:+: cs') : Starts cs' := by
  obtain ⟨name, delimiter, hname, htag⟩ := h
  exact ⟨name, delimiter, hname, htag.trans hin⟩

theorem LeavesNested.mono {cs cs' : List Char} (h : LeavesNested cs) (hsuffix : cs <:+ cs') :
    LeavesNested cs' := by
  obtain ⟨before, after, rfl, hnoEnd, hstarts⟩ := h
  obtain ⟨front, rfl⟩ := hsuffix
  exact ⟨front ++ before, after, by simp, hnoEnd, hstarts⟩

/-- The dashes at the start of a comment are not part of a tag. -/
theorem Starts.of_dashes {cs : List Char} (h : Starts (['-', '-'] ++ cs)) : Starts cs := by
  obtain ⟨name, delimiter, hname, htag⟩ := h
  refine ⟨name, delimiter, hname, ?_⟩
  simpa [List.infix_cons_iff] using htag

end Script

/-! ## The reader -/

/-- Where a reader of a script is. -/
inductive ScriptPlace
  /-- In the script. -/
  | script
  /-- In a comment, or in a script element that was started there. -/
  | comment (nested : Bool)
  deriving Repr, DecidableEq

/-- A reader of a script, with what the characters it has just read may be
the beginning of. -/
inductive ScriptReader
  | content (place : ScriptPlace)
  | lessThan (place : ScriptPlace)
  /-- In the name of a tag that closes an element. -/
  | endName (place : ScriptPlace) (name : List Char)
  /-- In the start of a comment, before its first dash. -/
  | bang
  /-- In the start of a comment, before its second dash. -/
  | bangDash
  /-- Behind a dash in a comment. -/
  | dash (nested : Bool)
  /-- Behind two dashes or more in a comment. -/
  | dashes (nested : Bool)
  /-- In the name of a tag in a comment that starts an element. -/
  | startName (name : List Char)
  deriving Repr, DecidableEq

namespace ScriptReader

open Script

/-- The reader of a script that begins. -/
def initial : ScriptReader := content .script

/-- Reads a character that does not go on with what was begun before. -/
def resume (place : ScriptPlace) (c : Char) : ScriptReader :=
  if c = '<' then lessThan place
  else match place with
    | .script => content .script
    | .comment nested => if c = '-' then dash nested else content (.comment nested)

/-- The reader behind a character; there is none behind the name of the tag
that closes the element. -/
def step (c : Char) : ScriptReader → Option ScriptReader
  | content place => some (resume place c)
  | lessThan place =>
    if c = '/' then some (endName place [])
    else if c = '!' ∧ place = .script then some bang
    else if c.isAlpha ∧ place = .comment false then some (startName [c])
    else some (resume place c)
  | endName place name =>
    if c.isAlpha then some (endName place (name ++ [c]))
    else if isName name c then
      if place = .comment true then some (content (.comment false)) else none
    else some (resume place c)
  | bang => if c = '-' then some bangDash else some (resume .script c)
  | bangDash => if c = '-' then some (dashes false) else some (resume .script c)
  | dash nested => if c = '-' then some (dashes nested) else some (resume (.comment nested) c)
  | dashes nested =>
    if c = '-' then some (dashes nested)
    else if c = '>' then some (content .script)
    else some (resume (.comment nested) c)
  | startName name =>
    if c.isAlpha then some (startName (name ++ [c]))
    else if isName name c then some (content (.comment true))
    else some (resume (.comment false) c)

/-- The reader behind a text, if the element is still open there. -/
def run : ScriptReader → List Char → Option ScriptReader
  | r, [] => some r
  | r, c :: rest => (r.step c).bind (run · rest)

/-- A text up to the end of the name of the tag that closes the element,
and what follows. -/
def split? : ScriptReader → List Char → Option (List Char × List Char)
  | _, [] => none
  | r, c :: rest =>
    match r.step c with
    | some r' => (split? r' rest).map fun s => (c :: s.1, s.2)
    | none => some ([], c :: rest)

end ScriptReader

/-- The content of a script element and what follows the name of the tag
that closes it, in a text that begins behind the tag that starts it. -/
def Script.element? (text : List Char) : Option (List Char × List Char) :=
  (ScriptReader.initial.split? text).map fun s =>
    (s.1.take (s.1.length - closingTag.length), s.2)

namespace ScriptReader

open Script

/-! ### Reading in parts -/

theorem run_append (before after : List Char) : ∀ r : ScriptReader,
    r.run (before ++ after) = (r.run before).bind (run · after) := by
  induction before with
  | nil =>
    intro r
    rfl
  | cons c before ih =>
    intro r
    simp only [List.cons_append, run]
    cases r.step c with
    | none => rfl
    | some r' => exact ih r'

/-- The element is not closed where the reader goes on. -/
theorem split?_append {before : List Char} (after : List Char) : ∀ {r r' : ScriptReader},
    r.run before = some r' →
    r.split? (before ++ after) = (r'.split? after).map fun s => (before ++ s.1, s.2) := by
  induction before with
  | nil =>
    intro r r' h
    obtain rfl := Option.some.inj h
    simp
  | cons c before ih =>
    intro r r' h
    obtain ⟨r₁, hstep, hrun⟩ := Option.bind_eq_some_iff.mp h
    simp only [List.cons_append, split?, hstep, ih hrun, Option.map_map]
    rfl

/-- What follows a closing tag is a part of the text. -/
theorem length_split?_le {cs : List Char} : ∀ {r : ScriptReader} {s : List Char × List Char},
    r.split? cs = some s → s.2.length ≤ cs.length := by
  induction cs with
  | nil =>
    intro r s h
    cases h
  | cons c rest ih =>
    intro r s h
    rw [split?] at h
    split at h
    · obtain ⟨s', hs', rfl⟩ := Option.map_eq_some_iff.mp h
      have hle := ih hs'
      exact Nat.le_succ_of_le hle
    · obtain rfl := Option.some.inj h
      exact Nat.le_refl _

/-! ## One character -/

def place : ScriptReader → ScriptPlace
  | content place => place
  | lessThan place => place
  | endName place _ => place
  | bang => .script
  | bangDash => .script
  | dash nested => .comment nested
  | dashes nested => .comment nested
  | startName _ => .comment false

/-- The last characters that were read, as far as they may be the beginning
of something. -/
def begun : ScriptReader → List Char
  | content _ => []
  | lessThan _ => ['<']
  | endName _ name => closingStart ++ name
  | bang => ['<', '!']
  | bangDash => ['<', '!', '-']
  | dash _ => ['-']
  | dashes _ => ['-', '-']
  | startName name => '<' :: name

/-- No closing tag is begun, and names are made of letters. -/
def Plain : ScriptReader → Prop
  | endName _ _ => False
  | startName name => ∀ c ∈ name, c.isAlpha = true
  | _ => True

/-- How a character changes the place: a comment is opened or ended, or the
reader stays where it is, but in a comment a script may be started. As long
as the reader stays in a comment, no end of the comment is overlooked. -/
inductive Move (r r' : ScriptReader) (c : Char) : Prop
  | script (before : r.place = .script) (after : r'.place = .script)
  | opens (before : r.place = .script) (after : r'.place = .comment false)
    (read : r.begun ++ [c] = commentStart) (begun : r'.begun = ['-', '-'])
  | ends (after : r'.place = .script) (read : r.begun ++ [c] = commentEnd)
  | stays (nested nested' : Bool) (before : r.place = .comment nested)
    (after : r'.place = .comment nested')
    (keeps : ∀ rest, commentEnd <:+: r.begun ++ c :: rest → commentEnd <:+: r'.begun ++ rest)
    (nests : nested' = nested ∨ nested' = true ∧ Starts (r.begun ++ [c]))

theorem commentEnd_infix_cons {c : Char} (hc : c ≠ '-') {cs : List Char}
    (h : commentEnd <:+: c :: cs) : commentEnd <:+: cs := by
  rcases List.infix_cons_iff.mp h with hfront | hin
  · exact absurd (List.cons_prefix_cons.mp hfront).1.symm hc
  · exact hin

theorem commentEnd_infix_dash {c : Char} (hc : c ≠ '-') {cs : List Char}
    (h : commentEnd <:+: '-' :: c :: cs) : commentEnd <:+: c :: cs := by
  rcases List.infix_cons_iff.mp h with hfront | hin
  · have hdash := (List.cons_prefix_cons.mp (List.cons_prefix_cons.mp hfront).2).1
    exact absurd hdash.symm hc
  · exact hin

theorem commentEnd_infix_dashes {c : Char} (hc : c ≠ '>') {cs : List Char}
    (h : commentEnd <:+: '-' :: '-' :: c :: cs) : commentEnd <:+: '-' :: c :: cs := by
  rcases List.infix_cons_iff.mp h with hfront | hin
  · have hend := (List.cons_prefix_cons.mp (List.cons_prefix_cons.mp
      (List.cons_prefix_cons.mp hfront).2).2).1
    exact absurd hend.symm hc
  · exact hin

theorem commentEnd_infix_letters {name : List Char} (hname : ∀ c ∈ name, c.isAlpha = true)
    {cs : List Char} (h : commentEnd <:+: name ++ cs) : commentEnd <:+: cs := by
  induction name with
  | nil => exact h
  | cons c name ih =>
    have hc : c ≠ '-' := by
      rintro rfl
      exact absurd (hname '-' List.mem_cons_self) (by decide)
    exact ih (fun d hd => hname d (List.mem_cons_of_mem c hd)) (commentEnd_infix_cons hc h)

/-! ### Characters that do not go on with what was begun -/

theorem resume_cases (place : ScriptPlace) (c : Char) :
    (c = '<' ∧ resume place c = lessThan place) ∨
      (∃ nested, c = '-' ∧ place = .comment nested ∧ resume place c = dash nested) ∨
      ((c = '-' → place = .script) ∧ resume place c = content place) := by
  unfold resume
  by_cases hlt : c = '<'
  · exact .inl ⟨hlt, if_pos hlt⟩
  · rw [if_neg hlt]
    cases place with
    | script => exact .inr (.inr ⟨fun _ => rfl, rfl⟩)
    | comment nested =>
      by_cases hdash : c = '-'
      · exact .inr (.inl ⟨nested, hdash, rfl, if_pos hdash⟩)
      · exact .inr (.inr ⟨fun h => absurd h hdash, if_neg hdash⟩)

@[simp] theorem place_resume (place : ScriptPlace) (c : Char) : (resume place c).place = place := by
  rcases resume_cases place c with ⟨-, h⟩ | ⟨nested, -, hplace, h⟩ | ⟨-, h⟩
  · rw [h]
    rfl
  · rw [h, hplace]
    rfl
  · rw [h]
    rfl

theorem plain_resume (place : ScriptPlace) (c : Char) : (resume place c).Plain := by
  rcases resume_cases place c with ⟨-, h⟩ | ⟨nested, -, -, h⟩ | ⟨-, h⟩
  all_goals
    rw [h]
    trivial

theorem begun_resume_suffix (place : ScriptPlace) (c : Char) : (resume place c).begun <:+ [c] := by
  rcases resume_cases place c with ⟨hc, h⟩ | ⟨nested, hc, -, h⟩ | ⟨-, h⟩
  · rw [h, hc]
    exact List.suffix_refl _
  · rw [h, hc]
    exact List.suffix_refl _
  · rw [h]
    exact List.nil_suffix

theorem commentEnd_infix_resume {nested : Bool} {c : Char} {rest : List Char}
    (hin : commentEnd <:+: c :: rest) :
    commentEnd <:+: (resume (.comment nested) c).begun ++ rest := by
  rcases resume_cases (.comment nested) c with ⟨hc, h⟩ | ⟨nested', hc, -, h⟩ | ⟨hc, h⟩
  · rw [hc] at hin
    rw [h]
    exact hin
  · rw [hc] at hin
    rw [h]
    exact hin
  · have hdash : c ≠ '-' := fun heq => nomatch hc heq
    rw [h]
    exact commentEnd_infix_cons hdash hin

/-- The next reader has begun no more than what was read last. -/
def Follows (r r' : ScriptReader) (c : Char) : Prop :=
  r'.Plain ∧ r'.begun <:+ r.begun ++ [c] ∧ Move r r' c

theorem follows_resume_script {r : ScriptReader} (hplace : r.place = .script) (c : Char) :
    Follows r (resume .script c) c :=
  ⟨plain_resume _ c, (begun_resume_suffix _ c).trans (List.suffix_append _ _),
    .script hplace (place_resume _ c)⟩

theorem follows_resume_comment {r : ScriptReader} {nested : Bool} {c : Char}
    (hplace : r.place = .comment nested)
    (hkeeps : ∀ rest, commentEnd <:+: r.begun ++ c :: rest → commentEnd <:+: c :: rest) :
    Follows r (resume (.comment nested) c) c :=
  ⟨plain_resume _ c, (begun_resume_suffix _ c).trans (List.suffix_append _ _),
    .stays nested nested hplace (place_resume _ c)
      (fun rest h => commentEnd_infix_resume (hkeeps rest h)) (.inl rfl)⟩

theorem ne_dash_of_isName {name : List Char} {c : Char} (h : isName name c = true) : c ≠ '-' := by
  rintro rfl
  simp [isName, isDelimiter] at h

/-- The reader goes on behind every character that does not begin a closing
tag. -/
theorem exists_step {r : ScriptReader} {c : Char} (hplain : r.Plain)
    (hopen : ¬closingStart <:+: r.begun ++ [c]) :
    ∃ r', r.step c = some r' ∧ Follows r r' c := by
  cases r with
  | content place =>
    refine ⟨_, rfl, ?_⟩
    cases place with
    | script => exact follows_resume_script rfl c
    | comment nested => exact follows_resume_comment rfl fun rest h => h
  | lessThan place =>
    have hslash : c ≠ '/' := by
      rintro rfl
      exact hopen (List.infix_refl _)
    rw [step, if_neg hslash]
    split_ifs with hbang hletter
    · obtain ⟨rfl, rfl⟩ := hbang
      exact ⟨_, rfl, trivial, List.suffix_refl _, .script rfl rfl⟩
    · obtain ⟨hletter, rfl⟩ := hletter
      exact ⟨_, rfl, by simpa [Plain] using hletter, List.suffix_refl _,
        .stays false false rfl rfl (fun rest h => h) (.inl rfl)⟩
    · refine ⟨_, rfl, ?_⟩
      cases place with
      | script => exact follows_resume_script rfl c
      | comment nested =>
        exact follows_resume_comment rfl fun rest h => commentEnd_infix_cons (by decide) h
  | endName place name => exact hplain.elim
  | bang =>
    rw [step]
    split_ifs with hdash
    · rw [hdash]
      exact ⟨_, rfl, trivial, List.suffix_refl _, .script rfl rfl⟩
    · exact ⟨_, rfl, follows_resume_script rfl c⟩
  | bangDash =>
    rw [step]
    split_ifs with hdash
    · rw [hdash]
      exact ⟨_, rfl, trivial, ⟨['<', '!'], rfl⟩, .opens rfl rfl rfl rfl⟩
    · exact ⟨_, rfl, follows_resume_script rfl c⟩
  | dash nested =>
    rw [step]
    split_ifs with hdash
    · rw [hdash]
      exact ⟨_, rfl, trivial, List.suffix_refl _,
        .stays nested nested rfl rfl (fun rest h => h) (.inl rfl)⟩
    · exact ⟨_, rfl, follows_resume_comment rfl fun rest h => commentEnd_infix_dash hdash h⟩
  | dashes nested =>
    rw [step]
    split_ifs with hdash hend
    · rw [hdash]
      exact ⟨_, rfl, trivial, ⟨['-'], rfl⟩,
        .stays nested nested rfl rfl (fun rest h => commentEnd_infix_dashes (by decide) h)
          (.inl rfl)⟩
    · rw [hend]
      exact ⟨_, rfl, trivial, List.nil_suffix, .ends rfl rfl⟩
    · exact ⟨_, rfl, follows_resume_comment rfl fun rest h =>
        commentEnd_infix_dash hdash (commentEnd_infix_dashes hend h)⟩
  | startName name =>
    -- Neither the bracket nor the letters are part of the end of a comment.
    have hkeeps (rest : List Char) (h : commentEnd <:+: begun (startName name) ++ c :: rest) :
        commentEnd <:+: c :: rest :=
      commentEnd_infix_letters hplain (commentEnd_infix_cons (by decide) h)
    rw [step]
    split_ifs with hletter hname
    · have hread (rest : List Char) : begun (startName name) ++ c :: rest =
          begun (startName (name ++ [c])) ++ rest := by
        simp [begun]
      refine ⟨_, rfl, ?_, List.suffix_refl _, .stays false false rfl rfl ?_ (.inl rfl)⟩
      · intro d hd
        rcases List.mem_append.mp hd with hd | hd
        · exact hplain d hd
        · rw [List.mem_singleton.mp hd]
          exact hletter
      · intro rest h
        rwa [← hread]
    · exact ⟨_, rfl, trivial, List.nil_suffix, .stays false true rfl rfl
        (fun rest h => commentEnd_infix_cons (ne_dash_of_isName hname) (hkeeps rest h))
        (.inr ⟨rfl, name, c, hname, List.infix_refl _⟩)⟩
    · exact ⟨_, rfl, follows_resume_comment rfl hkeeps⟩

/-! ## Whole texts -/

/-- The reader and the text in front of it hold no start of a closing tag. -/
structure Unclosed (r : ScriptReader) (cs : List Char) : Prop where
  plain : r.Plain
  noClosing : ¬closingStart <:+: r.begun ++ cs

theorem Follows.suffix {r r' : ScriptReader} {c : Char} (h : Follows r r' c) (rest : List Char) :
    r'.begun ++ rest <:+ r.begun ++ c :: rest := by
  obtain ⟨before, hbefore⟩ := h.2.1
  refine ⟨before, ?_⟩
  rw [← List.append_assoc, hbefore, List.append_assoc, List.singleton_append]

/-- The first character of a text that is read. -/
theorem Unclosed.exists_step {r : ScriptReader} {c : Char} {rest : List Char}
    (h : r.Unclosed (c :: rest)) :
    ∃ r', r.step c = some r' ∧ Follows r r' c ∧ r'.Unclosed rest := by
  have hopen : ¬closingStart <:+: r.begun ++ [c] := by
    intro hin
    refine h.noClosing (hin.trans ⟨[], rest, ?_⟩)
    simp
  obtain ⟨r', hstep, hfollows⟩ := ScriptReader.exists_step h.plain hopen
  exact ⟨r', hstep, hfollows, hfollows.1,
    fun hin => h.noClosing (hin.trans (hfollows.suffix rest).isInfix)⟩

/-- The element is open behind a part of the text. -/
theorem Unclosed.exists_run (cs rest : List Char) : ∀ {r : ScriptReader}, r.Unclosed (cs ++ rest) →
    ∃ r', r.run cs = some r' ∧ r'.Unclosed rest ∧
      r'.begun ++ rest <:+ r.begun ++ (cs ++ rest) := by
  induction cs with
  | nil =>
    intro r h
    exact ⟨r, rfl, h, List.suffix_refl _⟩
  | cons c cs ih =>
    intro r h
    obtain ⟨r₁, hstep, hfollows, hrest⟩ := h.exists_step
    obtain ⟨r', hrun, hunclosed, hsuffix⟩ := ih hrest
    refine ⟨r', ?_, hunclosed, hsuffix.trans (hfollows.suffix (cs ++ rest))⟩
    rw [run, hstep]
    exact hrun

/-- A comment that is not ended is not left, and neither is a script that
was started in it. -/
theorem place_run_comment (cs rest : List Char) : ∀ {r r' : ScriptReader} {nested : Bool},
    r.Unclosed (cs ++ rest) → r.place = .comment nested →
    ¬commentEnd <:+: r.begun ++ (cs ++ rest) → r.run cs = some r' →
    ∃ nested', r'.place = .comment nested' ∧ (nested = true → nested' = true) := by
  induction cs with
  | nil =>
    intro r r' nested _ hplace _ hrun
    obtain rfl := Option.some.inj hrun
    exact ⟨nested, hplace, id⟩
  | cons c cs ih =>
    intro r r' nested h hplace hnoEnd hrun
    obtain ⟨r₁, hstep, hfollows, hrest⟩ := h.exists_step
    rw [run, hstep] at hrun
    have hnoEnd' : ¬commentEnd <:+: r₁.begun ++ (cs ++ rest) :=
      fun hin => hnoEnd (hin.trans (hfollows.suffix (cs ++ rest)).isInfix)
    cases hfollows.2.2 with
    | script hbefore => exact nomatch hplace.symm.trans hbefore
    | opens hbefore => exact nomatch hplace.symm.trans hbefore
    | ends _ hread =>
      refine absurd ?_ hnoEnd
      rw [← hread]
      exact ⟨[], cs ++ rest, by simp⟩
    | stays n n' hbefore hafter _ hnests =>
      obtain rfl : nested = n := by simpa using hplace.symm.trans hbefore
      obtain ⟨nested', hplace', hnested'⟩ := ih hrest hafter hnoEnd' hrun
      refine ⟨nested', hplace', fun htrue => hnested' ?_⟩
      rcases hnests with rfl | ⟨rfl, -⟩
      · exact htrue
      · rfl

/-- What a reader has begun is not the end of a comment. -/
theorem not_commentEnd_infix_begun {r : ScriptReader} (h : r.Plain) :
    ¬commentEnd <:+: r.begun ++ [] := by
  intro hin
  have hmem : '>' ∈ r.begun ++ [] := hin.subset (by decide)
  cases r with
  | endName place name => exact h
  | startName name =>
    have hname : '>' ∈ name := by simpa [begun] using hmem
    exact absurd (h '>' hname) (by decide)
  | _ => simp [begun] at hmem

/-- A text that leaves the reader in a nested element has either a comment
of its own that does, or the reader was in a comment all the time. -/
theorem leavesNested_of_run (cs : List Char) : ∀ {r r' : ScriptReader}, r.Unclosed cs →
    r.run cs = some r' → r'.place = .comment true →
    LeavesNested (r.begun ++ cs) ∨
      ∃ nested, r.place = .comment nested ∧ ¬commentEnd <:+: r.begun ++ cs ∧
        (nested = true ∨ Starts (r.begun ++ cs)) := by
  induction cs with
  | nil =>
    intro r r' h hrun hplace
    obtain rfl := Option.some.inj hrun
    exact .inr ⟨true, hplace, not_commentEnd_infix_begun h.plain, .inl rfl⟩
  | cons c rest ih =>
    intro r r' h hrun hplace
    obtain ⟨r₁, hstep, hfollows, hrest⟩ := h.exists_step
    rw [run, hstep] at hrun
    rcases ih hrest hrun hplace with hleaves | ⟨nested, hplace₁, hnoEnd, hstarts⟩
    · exact .inl (hleaves.mono (hfollows.suffix rest))
    · cases hfollows.2.2 with
      | script _ hafter => exact nomatch hplace₁.symm.trans hafter
      | ends hafter => exact nomatch hplace₁.symm.trans hafter
      | opens _ hafter hread hbegun =>
        -- The comment that is opened here is the one that is not ended.
        obtain rfl : nested = false := by simpa using hplace₁.symm.trans hafter
        rw [hbegun] at hnoEnd hstarts
        refine .inl ⟨[], rest, ?_, hnoEnd, (hstarts.resolve_left (by decide)).of_dashes⟩
        rw [← hread]
        simp
      | stays n n' hbefore hafter hkeeps hnests =>
        obtain rfl : nested = n' := by simpa using hplace₁.symm.trans hafter
        refine .inr ⟨n, hbefore, fun hin => hnoEnd (hkeeps rest hin), ?_⟩
        rcases hnests with rfl | ⟨-, hhere⟩
        · exact hstarts.imp_right fun hs => hs.mono (hfollows.suffix rest).isInfix
        · exact .inr (hhere.mono ⟨[], rest, by simp⟩)

/-! ### Comments and tags -/

theorem step_lessThan {r : ScriptReader} (h : r.Plain) : r.step '<' = some (lessThan r.place) := by
  cases r with
  | endName place name => exact h.elim
  | startName name =>
    have hname : isName name '<' = false := rfl
    simp [step, resume, hname, place]
  | _ => simp [step, resume, place]

/-- Behind the start of a comment the reader is in a comment. -/
theorem run_commentStart {r : ScriptReader} (h : r.Plain) :
    ∃ nested, r.run commentStart = some (dashes nested) := by
  rw [commentStart, run, step_lessThan h]
  cases r.place with
  | script => exact ⟨false, rfl⟩
  | comment nested => exact ⟨nested, by simp [run, step, resume]⟩

theorem isAlpha_of_isName {name : List Char} {delimiter : Char}
    (h : isName name delimiter = true) : ∀ c ∈ name, c.isAlpha = true := by
  intro c hc
  rw [isName, Bool.and_eq_true, beq_iff_eq] at h
  have hletters : ∀ d ∈ "script".toList, d.isAlpha = true := List.all_eq_true.mp rfl
  rw [← Char.isAlpha_toLower_eq_isAlpha]
  refine hletters _ ?_
  rw [← h.2]
  exact List.mem_map_of_mem hc

theorem run_letters (letters : List Char) : ∀ {name : List Char},
    (∀ c ∈ letters, c.isAlpha = true) →
    (startName name).run letters = some (startName (name ++ letters)) := by
  induction letters with
  | nil =>
    intro name _
    simp [run]
  | cons c letters ih =>
    intro name h
    rw [run, step, if_pos (h c List.mem_cons_self), Option.bind_some,
      ih fun d hd => h d (List.mem_cons_of_mem c hd), List.append_assoc, List.singleton_append]

theorem not_isAlpha_of_isName {name : List Char} {delimiter : Char}
    (h : isName name delimiter = true) : delimiter.isAlpha = false := by
  rw [isName, Bool.and_eq_true] at h
  have hdelimiter : delimiter ∈ ['\t', '\n', '\x0c', '\r', ' ', '/', '>'] := by
    simpa [isDelimiter] using h.1
  have hdelimiters : ['\t', '\n', '\x0c', '\r', ' ', '/', '>'].all (!·.isAlpha) = true := rfl
  simpa using List.all_eq_true.mp hdelimiters delimiter hdelimiter

/-- A tag in a comment starts a script. -/
theorem run_start {r : ScriptReader} (hplain : r.Plain) (hplace : r.place = .comment false)
    {name : List Char} {delimiter : Char} (h : isName name delimiter = true) :
    r.run ('<' :: (name ++ [delimiter])) = some (content (.comment true)) := by
  have hletters := isAlpha_of_isName h
  cases name with
  | nil => simp [isName] at h
  | cons c letters =>
    have hc := hletters c List.mem_cons_self
    have hslash : c ≠ '/' := by
      rintro rfl
      exact absurd hc (by decide)
    have hfirst : (lessThan (.comment false)).step c = some (startName [c]) := by
      simp [step, hslash, hc]
    have hlast : (startName (c :: letters)).step delimiter = some (content (.comment true)) := by
      simp [step, not_isAlpha_of_isName h, h]
    rw [run, step_lessThan hplain, hplace, Option.bind_some, List.cons_append, run, hfirst,
      Option.bind_some, run_append, run_letters letters fun d hd =>
        hletters d (List.mem_cons_of_mem c hd)]
    simp [run, hlast]

/-- A script that is started in a comment is not left, unless the comment
is ended. -/
theorem nested_of_starts {cs : List Char} {r r' : ScriptReader} {nested : Bool}
    (h : r.Unclosed cs) (hplace : r.place = .comment nested)
    (hnoEnd : ¬commentEnd <:+: r.begun ++ cs) (hstarts : Starts cs) (hrun : r.run cs = some r') :
    r'.place = .comment true := by
  obtain ⟨name, delimiter, hname, before, after, rfl⟩ := hstarts
  generalize htag : '<' :: (name ++ [delimiter]) = tag at *
  rw [List.append_assoc] at h hnoEnd hrun
  obtain ⟨r₁, hrun₁, hunclosed₁, hsuffix₁⟩ := h.exists_run
  have hnoEnd₁ : ¬commentEnd <:+: r₁.begun ++ (tag ++ after) :=
    fun hin => hnoEnd (hin.trans hsuffix₁.isInfix)
  obtain ⟨nested₁, hplace₁, -⟩ := place_run_comment before _ h hplace hnoEnd hrun₁
  obtain ⟨r₂, hrun₂, hunclosed₂, hsuffix₂⟩ := hunclosed₁.exists_run
  have hnoEnd₂ : ¬commentEnd <:+: r₂.begun ++ after :=
    fun hin => hnoEnd₁ (hin.trans hsuffix₂.isInfix)
  have hplace₂ : r₂.place = .comment true := by
    cases nested₁ with
    | false =>
      have hnested := run_start hunclosed₁.plain hplace₁ hname
      rw [htag, hrun₂] at hnested
      rw [Option.some.inj hnested]
      rfl
    | true =>
      obtain ⟨nested₂, hplace₂, hnested₂⟩ :=
        place_run_comment tag after hunclosed₁ hplace₁ hnoEnd₁ hrun₂
      rw [hplace₂, hnested₂ rfl]
  rw [run_append, hrun₁, Option.bind_some, run_append, hrun₂, Option.bind_some] at hrun
  rw [← List.append_nil after] at hunclosed₂ hnoEnd₂
  obtain ⟨nested', hplace', hnested'⟩ :=
    place_run_comment after [] hunclosed₂ hplace₂ hnoEnd₂ hrun
  rw [hplace', hnested' rfl]

/-- A text that holds no start of a closing tag leaves the reader in a
nested element exactly if it starts a script in a comment that it does not
end. -/
theorem nested_iff_leavesNested {cs : List Char} (h : ¬closingStart <:+: cs) :
    ∃ r, initial.run cs = some r ∧ r.Plain ∧ (r.place = .comment true ↔ LeavesNested cs) := by
  have hunclosed : initial.Unclosed (cs ++ []) := ⟨trivial, by simpa [initial, begun] using h⟩
  obtain ⟨r, hrun, hr, -⟩ := hunclosed.exists_run
  rw [List.append_nil] at hunclosed
  refine ⟨r, hrun, hr.plain, ?_, ?_⟩
  · intro hplace
    rcases leavesNested_of_run cs hunclosed hrun hplace with hleaves | ⟨nested, hscript, -⟩
    · exact hleaves
    · cases hscript
  · rintro ⟨before, after, rfl, hnoEnd, hstarts⟩
    obtain ⟨r₁, hrun₁, hunclosed₁, -⟩ := hunclosed.exists_run
    obtain ⟨nested, hopened⟩ := run_commentStart hunclosed₁.plain
    obtain ⟨r₂, hrun₂, hunclosed₂, -⟩ := hunclosed₁.exists_run
    obtain rfl : r₂ = dashes nested := Option.some.inj (hrun₂.symm.trans hopened)
    rw [run_append, hrun₁, Option.bind_some, run_append, hrun₂, Option.bind_some] at hrun
    exact nested_of_starts hunclosed₂ rfl hnoEnd hstarts hrun

/-! ## The closing tag -/

theorem run_closingTag {r : ScriptReader} (h : r.Plain) :
    r.run closingTag = some (endName r.place "script".toList) := by
  rw [closingTag, closingStart, List.cons_append, run, step_lessThan h]
  rfl

/-- The end of a closing tag, in any place but a nested element. -/
theorem split?_closed {place : ScriptPlace} (h : place ≠ .comment true) (page : List Char) :
    (endName place "script".toList).split? ('>' :: page) = some ([], '>' :: page) := by
  have hstep : (endName place "script".toList).step '>' = none := if_neg h
  rw [split?, hstep]

/-- A closing tag in a nested element is read over. -/
theorem split?_nested (page : List Char) :
    (endName (.comment true) "script".toList).split? ('>' :: page) =
      ((content (.comment false)).split? page).map fun s => ('>' :: s.1, s.2) := rfl

end ScriptReader

namespace Script

open ScriptReader

/-- A text that holds no start of a closing tag is the content of a script
element, unless it leaves the reader in a nested one. -/
theorem element?_closed {cs : List Char} (h : ¬closingStart <:+: cs) (hleaves : ¬LeavesNested cs)
    (page : List Char) :
    element? (cs ++ (closingTag ++ '>' :: page)) = some (cs, '>' :: page) := by
  obtain ⟨r, hrun, hplain, hnested⟩ := nested_iff_leavesNested h
  rw [element?, split?_append _ hrun, split?_append _ (run_closingTag hplain),
    split?_closed (mt hnested.mp hleaves)]
  simp

/-- In a nested element the closing tag is taken for the end of that one. -/
theorem element?_nested {cs : List Char} (h : ¬closingStart <:+: cs) (hleaves : LeavesNested cs)
    (page : List Char) :
    element? (cs ++ (closingTag ++ '>' :: page)) =
      ((content (.comment false)).split? page).map fun s =>
        ((cs ++ (closingTag ++ '>' :: s.1)).take (cs.length + 1 + s.1.length), s.2) := by
  obtain ⟨r, hrun, hplain, hnested⟩ := nested_iff_leavesNested h
  rw [element?, split?_append _ hrun, split?_append _ (run_closingTag hplain), hnested.mpr hleaves,
    split?_nested, Option.map_map, Option.map_map, Option.map_map]
  congr 1
  funext s
  have hlength : (cs ++ (closingTag ++ '>' :: s.1)).length - closingTag.length =
      cs.length + 1 + s.1.length := by
    simp
    omega
  simp only [Function.comp_apply, hlength]

end Script

end Html

end PagePreview
