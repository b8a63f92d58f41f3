/-
PagePreview.Proofs.Html.Reader — HTML that is written is read back.

A reader goes through a text one character after the other and knows
nothing of trees. An angle bracket in the content opens a tag, a quote in a
tag opens the value of an attribute, and only the quote that closes the
value makes an angle bracket the end of the tag. Entities are read where
there is text: in the content and in values.

* `Entity.step`, `Reader.step` — what one character does.
* `Event` — what the reader sees: tags with their attributes, and
  characters.
* `Markup.events` — what there is to see in a tree.
* `Markup.IsPlain` — tags and names of attributes are plain words. It is
  the one condition on a tree: they are written as they are, while texts
  and values may be anything.
* `Markup.foldl_step_write` — wherever a tree stands in the content, the
  reader sees it and is in the content again.
* `read_render` — the events of a text are those of its trees.
-/
import Mathlib
import PagePreview.Html.Markup

namespace PagePreview

namespace Html

/-! ## The reader -/

/-- What a reader sees. -/
inductive Event
  /-- A tag that starts an element. -/
  | start (tag : String) (attributes : List Attribute)
  /-- A tag that ends an element. -/
  | stop (tag : String)
  /-- A character of the content. -/
  | char (c : Char)
  deriving Repr, DecidableEq

namespace Entity

def table : List (List Char × Char) :=
  [("amp".toList, '&'), ("lt".toList, '<'), ("gt".toList, '>'), ("quot".toList, '"')]

/-- What an ampersand and the characters behind it stand for if there is no
entity after all. -/
def literal : Option (List Char) → List Char
  | none => []
  | some name => '&' :: name

/-- Reads a character of a text with entities, where `none` or the name of
an entity stands open: the characters that are known now, and what is open
then. -/
def step (opened : Option (List Char)) (c : Char) : List Char × Option (List Char) :=
  if c = '&' then (literal opened, some [])
  else match opened with
    | none => ([c], none)
    | some name =>
      if c.isAlpha then ([], some (name ++ [c]))
      else if c = ';' then
        (((table.lookup name).map fun d => [d]).getD ('&' :: name ++ [';']), none)
      else ('&' :: name ++ [c], none)

def run : Option (List Char) → List Char → List Char × Option (List Char)
  | opened, [] => ([], opened)
  | opened, c :: rest =>
    ((step opened c).1 ++ (run (step opened c).2 rest).1, (run (step opened c).2 rest).2)

end Entity

inductive Place
  /-- In the content, where an entity may stand open. -/
  | content (opened : Option (List Char))
  /-- In the name of a tag. -/
  | tag (name : List Char)
  /-- In a tag, between its attributes. -/
  | gap (tag : String) (attributes : List Attribute)
  /-- In the name of an attribute. -/
  | name (tag : String) (attributes : List Attribute) (name : List Char)
  /-- Before the value of an attribute. -/
  | equals (tag : String) (attributes : List Attribute) (name : String)
  /-- In the value of an attribute, where an entity may stand open. -/
  | value (tag : String) (attributes : List Attribute) (name : String) (value : List Char)
      (opened : Option (List Char))

structure Reader where
  events : List Event
  place : Place

def Event.ofTag (tag : String) (attributes : List Attribute) : Event :=
  match tag.toList with
  | '/' :: name => .stop (String.ofList name)
  | _ => .start tag attributes

namespace Reader

def initial : Reader := ⟨[], .content none⟩

def closeTag (r : Reader) (tag : String) (attributes : List Attribute) : Reader :=
  ⟨r.events ++ [.ofTag tag attributes], .content none⟩

def step (r : Reader) (c : Char) : Reader :=
  match r.place with
  | .content opened =>
    if c = '<' then ⟨r.events ++ (Entity.literal opened).map .char, .tag []⟩
    else
      let (known, opened) := Entity.step opened c
      ⟨r.events ++ known.map .char, .content opened⟩
  | .tag name =>
    if c = '>' then r.closeTag (String.ofList name) []
    else if c = ' ' then ⟨r.events, .gap (String.ofList name) []⟩
    else ⟨r.events, .tag (name ++ [c])⟩
  | .gap tag attributes =>
    if c = '>' then r.closeTag tag attributes
    else if c = ' ' ∨ c = '/' then r
    else ⟨r.events, .name tag attributes [c]⟩
  | .name tag attributes name =>
    if c = '>' then r.closeTag tag (attributes ++ [⟨String.ofList name, ""⟩])
    else if c = '=' then ⟨r.events, .equals tag attributes (String.ofList name)⟩
    else if c = ' ' then ⟨r.events, .gap tag (attributes ++ [⟨String.ofList name, ""⟩])⟩
    else ⟨r.events, .name tag attributes (name ++ [c])⟩
  | .equals tag attributes name =>
    if c = '>' then r.closeTag tag (attributes ++ [⟨name, ""⟩])
    else if c = '"' then ⟨r.events, .value tag attributes name [] none⟩
    else r
  | .value tag attributes name value opened =>
    if c = '"' then
      ⟨r.events,
        .gap tag (attributes ++ [⟨name, String.ofList (value ++ Entity.literal opened)⟩])⟩
    else
      let (known, opened) := Entity.step opened c
      ⟨r.events, .value tag attributes name (value ++ known) opened⟩

/-- What has been seen when the text ends. A tag that is not closed is
not seen. -/
def finish (r : Reader) : List Event :=
  match r.place with
  | .content opened => r.events ++ (Entity.literal opened).map .char
  | _ => r.events

end Reader

def read (text : String) : List Event :=
  (text.toList.foldl Reader.step Reader.initial).finish

/-! ## What there is to see in a tree -/

/-- Whether a name may be written as it is. -/
def isPlainName (s : String) : Bool :=
  s ≠ "" && s.toList.all fun c => c.isAlpha || c == '-'

namespace Markup

mutual

/-- What there is to see in a tree. -/
def events : Markup → List Event
  | text s => s.toList.map .char
  | element tag attributes content =>
    .start tag attributes :: (eventsAll content ++ [.stop tag])
  | void tag attributes => [.start tag attributes]

def eventsAll : List Markup → List Event
  | [] => []
  | m :: rest => events m ++ eventsAll rest

end

mutual

/-- Tags and names of attributes are plain words throughout. -/
def IsPlain : Markup → Prop
  | text _ => True
  | element tag attributes content =>
    isPlainName tag ∧ (∀ a ∈ attributes, isPlainName a.name) ∧ ArePlain content
  | void tag attributes => isPlainName tag ∧ ∀ a ∈ attributes, isPlainName a.name

def ArePlain : List Markup → Prop
  | [] => True
  | m :: rest => IsPlain m ∧ ArePlain rest

end

end Markup

/-! ## Texts -/

namespace Entity

theorem run_append : ∀ (opened : Option (List Char)) (s t : List Char),
    run opened (s ++ t) =
      ((run opened s).1 ++ (run (run opened s).2 t).1, (run (run opened s).2 t).2)
  | _, [], _ => rfl
  | opened, c :: s, t => by
      simp only [List.cons_append, run, run_append (step opened c).2 s t, List.append_assoc]

/-- What is written for the characters of a text, each on its own, is read
as the text. -/
theorem run_flatMap {f : Char → List Char} (hf : ∀ c, run none (f c) = ([c], none)) :
    ∀ s : List Char, run none (s.flatMap f) = (s, none)
  | [] => rfl
  | c :: s => by
      rw [List.flatMap_cons, run_append, hf c, run_flatMap hf s]
      rfl

theorem run_htmlChar (c : Char) : run none (htmlChar c) = ([c], none) := by
  unfold htmlChar
  split
  next hc => subst hc; cbv
  next hamp =>
    split
    next hc => subst hc; cbv
    next =>
      split
      next hc => subst hc; cbv
      next => simp [run, step, hamp]

theorem run_attributeChar (c : Char) : run none (attributeChar c) = ([c], none) := by
  unfold attributeChar
  split
  next hc => subst hc; cbv
  next => exact run_htmlChar c

end Entity

theorem lt_notMem_htmlChar (c : Char) : '<' ∉ htmlChar c := by
  unfold htmlChar
  split
  next => simp
  next =>
    split
    next => simp
    next hlt =>
      split
      next => simp
      next => simpa using fun h => hlt h.symm

theorem quote_notMem_attributeChar (c : Char) : '"' ∉ attributeChar c := by
  unfold attributeChar
  split
  next => simp
  next hquote =>
    unfold htmlChar
    repeat' split
    next => simp
    next => simp
    next => simp
    next => simpa using fun h => hquote h.symm

namespace Reader

/-- A text without angle brackets stays in the content. -/
theorem foldl_step_content : ∀ (s : List Char) (events : List Event)
    (opened : Option (List Char)), '<' ∉ s →
    s.foldl step ⟨events, .content opened⟩ =
      ⟨events ++ (Entity.run opened s).1.map .char, .content (Entity.run opened s).2⟩
  | [], events, opened, _ => by simp [Entity.run]
  | c :: s, events, opened, hs => by
      obtain ⟨hc, hs⟩ := not_or.mp fun h => hs (List.mem_cons.mpr h)
      have hstep : step ⟨events, .content opened⟩ c =
          ⟨events ++ (Entity.step opened c).1.map .char,
            .content (Entity.step opened c).2⟩ := by
        simp [step, Ne.symm hc]
      rw [List.foldl_cons, hstep, foldl_step_content s _ _ hs]
      simp [Entity.run]

/-- A text without quotes stays in the value. -/
theorem foldl_step_value {events : List Event} {tag : String} {attributes : List Attribute}
    {name : String} : ∀ (s value : List Char) (opened : Option (List Char)), '"' ∉ s →
    s.foldl step ⟨events, .value tag attributes name value opened⟩ =
      ⟨events, .value tag attributes name (value ++ (Entity.run opened s).1)
        (Entity.run opened s).2⟩
  | [], value, opened, _ => by simp [Entity.run]
  | c :: s, value, opened, hs => by
      obtain ⟨hc, hs⟩ := not_or.mp fun h => hs (List.mem_cons.mpr h)
      have hstep : step ⟨events, .value tag attributes name value opened⟩ c =
          ⟨events, .value tag attributes name (value ++ (Entity.step opened c).1)
            (Entity.step opened c).2⟩ := by
        simp [step, Ne.symm hc]
      rw [List.foldl_cons, hstep, foldl_step_value s _ _ hs]
      simp [Entity.run]

/-- An escaped text is read as the text, whatever it says. -/
theorem foldl_step_text (events : List Event) (s : List Char) :
    (s.flatMap htmlChar).foldl step ⟨events, .content none⟩ =
      ⟨events ++ s.map .char, .content none⟩ := by
  have hs : '<' ∉ s.flatMap htmlChar := by
    simp [lt_notMem_htmlChar]
  rw [foldl_step_content _ _ _ hs, Entity.run_flatMap Entity.run_htmlChar]

end Reader

/-! ## Tags -/

/-- A character of a plain word has no meaning in a tag. -/
theorem ne_of_plain {s : String} (h : isPlainName s) {c : Char} (hc : c ∈ s.toList) :
    c ≠ '>' ∧ c ≠ ' ' ∧ c ≠ '=' ∧ c ≠ '/' := by
  have hall : s.toList.all (fun c => c.isAlpha || c == '-') = true := (Bool.and_eq_true_iff.mp h).2
  have hplain := List.all_eq_true.mp hall c hc
  refine ⟨?_, ?_, ?_, ?_⟩ <;>
  · rintro rfl
    revert hplain
    decide

theorem exists_cons_of_plain {s : String} (h : isPlainName s) : ∃ c rest, s.toList = c :: rest := by
  refine List.exists_cons_of_ne_nil fun hnil => ?_
  have hempty : s = "" := String.toList_eq_nil_iff.mp hnil
  simp [isPlainName, hempty] at h

theorem Event.ofTag_of_plain {tag : String} (h : isPlainName tag)
    (attributes : List Attribute) : Event.ofTag tag attributes = .start tag attributes := by
  obtain ⟨c, rest, hchars⟩ := exists_cons_of_plain h
  have hslash := (ne_of_plain h (c := c) (by simp [hchars])).2.2.2
  unfold Event.ofTag
  split
  next name heq => simp [hchars, hslash] at heq
  next => rfl

theorem Event.ofTag_end (tag : String) :
    Event.ofTag (String.ofList ('/' :: tag.toList)) [] = .stop tag := by
  rw [Event.ofTag, String.toList_ofList]
  exact congrArg Event.stop String.ofList_toList

namespace Reader

/-- The name of a tag is read up to a space or an angle bracket. -/
theorem foldl_step_tag (events : List Event) : ∀ s name : List Char,
    (∀ c ∈ s, c ≠ '>' ∧ c ≠ ' ') →
    s.foldl step ⟨events, .tag name⟩ = ⟨events, .tag (name ++ s)⟩
  | [], name, _ => by simp
  | c :: s, name, hs => by
      obtain ⟨hend, hspace⟩ := hs c (by simp)
      have hstep : step ⟨events, .tag name⟩ c = ⟨events, .tag (name ++ [c])⟩ := by
        simp [step, hend, hspace]
      rw [List.foldl_cons, hstep, foldl_step_tag events s _ fun d hd => hs d (by simp [hd])]
      simp

/-- The name of an attribute is read up to its equals sign. -/
theorem foldl_step_name {events : List Event} {tag : String} {attributes : List Attribute} :
    ∀ s name : List Char, (∀ c ∈ s, c ≠ '>' ∧ c ≠ ' ' ∧ c ≠ '=') →
    s.foldl step ⟨events, .name tag attributes name⟩ =
      ⟨events, .name tag attributes (name ++ s)⟩
  | [], name, _ => by simp
  | c :: s, name, hs => by
      obtain ⟨hend, hspace, hequals⟩ := hs c (by simp)
      have hstep : step ⟨events, .name tag attributes name⟩ c =
          ⟨events, .name tag attributes (name ++ [c])⟩ := by
        simp [step, hend, hspace, hequals]
      rw [List.foldl_cons, hstep, foldl_step_name s _ fun d hd => hs d (by simp [hd])]
      simp

theorem foldl_step_attributeName {events : List Event} {tag : String}
    {attributes : List Attribute} {name : String} (h : isPlainName name) :
    name.toList.foldl step ⟨events, .gap tag attributes⟩ =
      ⟨events, .name tag attributes name.toList⟩ := by
  obtain ⟨c, rest, hchars⟩ := exists_cons_of_plain h
  obtain ⟨hend, hspace, -, hslash⟩ := ne_of_plain h (c := c) (by simp [hchars])
  have hrest : ∀ d ∈ rest, d ≠ '>' ∧ d ≠ ' ' ∧ d ≠ '=' := fun d hd =>
    have ⟨hend, hspace, hequals, _⟩ := ne_of_plain h (c := d) (by simp [hchars, hd])
    ⟨hend, hspace, hequals⟩
  have hfirst : step ⟨events, .gap tag attributes⟩ c = ⟨events, .name tag attributes [c]⟩ := by
    simp [step, hend, hspace, hslash]
  rw [hchars, List.foldl_cons, hfirst, foldl_step_name _ _ hrest]
  rfl

/-- A value is read as it is, whatever it says. -/
theorem foldl_step_attributeValue {events : List Event} {tag : String}
    {attributes : List Attribute} {name value : String} :
    (value.toList.flatMap attributeChar).foldl step
        ⟨events, .value tag attributes name [] none⟩ =
      ⟨events, .value tag attributes name value.toList none⟩ := by
  have hquote : '"' ∉ value.toList.flatMap attributeChar := by
    simp [quote_notMem_attributeChar]
  rw [foldl_step_value _ _ _ hquote, Entity.run_flatMap Entity.run_attributeChar]
  rfl

theorem foldl_step_attribute {events : List Event} {tag : String} {attributes : List Attribute}
    {a : Attribute} (h : isPlainName a.name) :
    a.write.foldl step ⟨events, .gap tag attributes⟩ =
      ⟨events, .gap tag (attributes ++ [a])⟩ := by
  have hspace : [' '].foldl step ⟨events, .gap tag attributes⟩ =
      ⟨events, .gap tag attributes⟩ := rfl
  have hopen : ['=', '"'].foldl step ⟨events, .name tag attributes a.name.toList⟩ =
      ⟨events, .value tag attributes a.name [] none⟩ := by
    simp [step]
  have hclose : ['"'].foldl step ⟨events, .value tag attributes a.name a.value.toList none⟩ =
      ⟨events, .gap tag (attributes ++ [a])⟩ := by
    simp [step, Entity.literal]
  rw [Attribute.write, ← List.singleton_append, List.foldl_append, List.foldl_append,
    List.foldl_append, List.foldl_append, hspace, foldl_step_attributeName h, hopen,
    foldl_step_attributeValue, hclose]

theorem foldl_step_attributes {events : List Event} {tag : String} :
    ∀ attributes before : List Attribute, (∀ a ∈ attributes, isPlainName a.name) →
    (attributes.flatMap Attribute.write).foldl step ⟨events, .gap tag before⟩ =
      ⟨events, .gap tag (before ++ attributes)⟩
  | [], before, _ => by simp
  | a :: attributes, before, h => by
      rw [List.flatMap_cons, List.foldl_append, foldl_step_attribute (h a (by simp)),
        foldl_step_attributes attributes _ fun b hb => h b (by simp [hb])]
      simp

/-- Where a reader is when the start of a tag has been read. -/
def afterTag (tag : String) : List Attribute → Place
  | [] => .tag tag.toList
  | attributes => .gap tag attributes

theorem foldl_step_writeTag {events : List Event} {tag : String} {attributes : List Attribute}
    (htag : isPlainName tag) (h : ∀ a ∈ attributes, isPlainName a.name) :
    (Markup.writeTag tag attributes).foldl step ⟨events, .content none⟩ =
      ⟨events, afterTag tag attributes⟩ := by
  have hopen : step ⟨events, .content none⟩ '<' = ⟨events, .tag []⟩ := by
    simp [step, Entity.literal]
  have hname : tag.toList.foldl step ⟨events, .tag []⟩ = ⟨events, .tag tag.toList⟩ :=
    foldl_step_tag events _ _ fun c hc =>
      have ⟨hend, hspace, _⟩ := ne_of_plain htag hc
      ⟨hend, hspace⟩
  rw [Markup.writeTag, List.cons_append, List.foldl_cons, List.foldl_append, hopen, hname]
  cases attributes with
  | nil => rfl
  | cons a attributes =>
    -- The space before the first attribute is read alike in the name and behind it.
    have hgap : (List.flatMap Attribute.write (a :: attributes)).foldl step
          ⟨events, .tag tag.toList⟩ =
        (List.flatMap Attribute.write (a :: attributes)).foldl step ⟨events, .gap tag []⟩ := by
      simp [Attribute.write, step]
    rw [hgap, foldl_step_attributes _ _ h]
    rfl

/-- A tag that starts an element ends with an angle bracket, or with a slash
before it. -/
theorem foldl_step_tagEnd {events : List Event} {tag : String} (attributes : List Attribute)
    (htag : isPlainName tag) {s : List Char} (hs : s = ['>'] ∨ s = [' ', '/', '>']) :
    s.foldl step ⟨events, afterTag tag attributes⟩ =
      ⟨events ++ [.start tag attributes], .content none⟩ := by
  rcases hs with rfl | rfl <;>
  · cases attributes <;>
      simp [afterTag, step, closeTag, Event.ofTag_of_plain htag]

theorem foldl_step_writeEnd {events : List Event} {tag : String} (htag : isPlainName tag) :
    (Markup.writeEnd tag).foldl step ⟨events, .content none⟩ =
      ⟨events ++ [.stop tag], .content none⟩ := by
  have hopen : ['<', '/'].foldl step ⟨events, .content none⟩ = ⟨events, .tag ['/']⟩ := by
    simp [step, Entity.literal]
  have hname : tag.toList.foldl step ⟨events, .tag ['/']⟩ =
      ⟨events, .tag ('/' :: tag.toList)⟩ :=
    foldl_step_tag events _ _ fun c hc =>
      have ⟨hend, hspace, _⟩ := ne_of_plain htag hc
      ⟨hend, hspace⟩
  have hclose : ['>'].foldl step ⟨events, .tag ('/' :: tag.toList)⟩ =
      ⟨events ++ [.stop tag], .content none⟩ := by
    rw [← Event.ofTag_end]
    rfl
  show (['<', '/'] ++ tag.toList ++ ['>']).foldl step _ = _
  rw [List.foldl_append, List.foldl_append, hopen, hname, hclose]

end Reader

/-! ## Trees -/

namespace Markup

open Reader

mutual

/-- A tree is read as what there is to see in it, wherever in the content
it stands. -/
theorem foldl_step_write : ∀ (m : Markup), m.IsPlain → ∀ events : List Event,
    (write m).foldl step ⟨events, .content none⟩ = ⟨events ++ m.events, .content none⟩
  | text s, _, events => foldl_step_text events s.toList
  | element tag attributes content, ⟨htag, hattributes, hcontent⟩, events => by
      have hend : ['>'].foldl step ⟨events, afterTag tag attributes⟩ =
          ⟨events ++ [.start tag attributes], .content none⟩ :=
        foldl_step_tagEnd attributes htag (.inl rfl)
      rw [write, ← List.singleton_append, List.foldl_append, List.foldl_append,
        List.foldl_append, foldl_step_writeTag htag hattributes, hend,
        foldl_step_writeAll content hcontent, foldl_step_writeEnd htag]
      simp [Markup.events]
  | void tag attributes, ⟨htag, hattributes⟩, events => by
      rw [write, List.foldl_append, foldl_step_writeTag htag hattributes,
        foldl_step_tagEnd attributes htag (.inr rfl)]
      rfl

theorem foldl_step_writeAll : ∀ (ms : List Markup), ArePlain ms → ∀ events : List Event,
    (writeAll ms).foldl step ⟨events, .content none⟩ = ⟨events ++ eventsAll ms, .content none⟩
  | [], _, events => by simp [writeAll, eventsAll]
  | m :: rest, ⟨hm, hrest⟩, events => by
      rw [writeAll, List.foldl_append, foldl_step_write m hm, foldl_step_writeAll rest hrest]
      simp [eventsAll]

end

end Markup

theorem read_render {ms : List Markup} (h : Markup.ArePlain ms) :
    read (Markup.render ms) = Markup.eventsAll ms := by
  rw [read, Markup.render, String.toList_ofList, Reader.initial,
    Markup.foldl_step_writeAll ms h]
  simp [Reader.finish, Entity.literal]

end Html

end PagePreview
