/-
PagePreview.Proofs.Text.Excerpt — parts of a source, cut out by their byte
offsets.

An offset can be cut at only where a character starts or the source ends.
A range between two such offsets is the place of some characters of the
source, and to cut the range out is to take these characters.

* `IsBoundary`, `isBoundary_iff` — the source can be cut at an offset.
* `Span.excerpt` — what stands in a range of a source.
* `Span.Cuts` — a range is the place of a text between two others.
* `Span.Cuts.excerpt_eq` — the excerpt of such a range is the text.
-/
import Mathlib
import PagePreview.Text.Position

namespace PagePreview

theorem utf8Length_eq_utf8Len (cs : List Char) : utf8Length cs = String.utf8Len cs := by
  induction cs with
  | nil => rfl
  | cons c cs ih => rw [utf8Length_cons, String.utf8Len_cons, ih, Nat.add_comm]

theorem utf8Length_toList (s : String) : utf8Length s.toList = s.utf8ByteSize := by
  rw [utf8Length_eq_utf8Len, String.utf8Len_toList]

@[simp] theorem utf8ByteSize_ofList (cs : List Char) :
    (String.ofList cs).utf8ByteSize = utf8Length cs := by
  rw [← utf8Length_toList, String.toList_ofList]

theorem utf8Length_pos {cs : List Char} (h : cs ≠ []) : 0 < utf8Length cs := by
  obtain ⟨c, rest, rfl⟩ := List.exists_cons_of_ne_nil h
  have hc := c.utf8Size_pos
  rw [utf8Length_cons]
  omega

/-! ## Boundaries -/

/-- The offset is the place between two characters of the source, or one of
its ends. -/
def IsBoundary (source : String) (offset : Nat) : Prop :=
  String.Pos.Raw.IsValid source ⟨offset⟩

theorem isBoundary_utf8Length {source : String} {before after : List Char}
    (h : source.toList = before ++ after) : IsBoundary source (utf8Length before) := by
  refine String.Pos.Raw.isValid_iff_exists_append.mpr
    ⟨String.ofList before, String.ofList after, ?_, ?_⟩
  · rw [← String.ofList_append, ← h, String.ofList_toList]
  · rw [String.Pos.Raw.ext_iff, String.byteIdx_rawEndPos, utf8ByteSize_ofList]

/-- Where a source can be cut, it is cut into two texts. -/
theorem isBoundary_iff {source : String} {offset : Nat} :
    IsBoundary source offset ↔
      ∃ before after, source.toList = before ++ after ∧ offset = utf8Length before := by
  constructor
  · intro h
    obtain ⟨front, back, hsource, hfront⟩ := String.Pos.Raw.isValid_iff_exists_append.mp h
    refine ⟨front.toList, back.toList, by rw [hsource, String.toList_append], ?_⟩
    rw [utf8Length_toList]
    exact congrArg String.Pos.Raw.byteIdx hfront
  · rintro ⟨before, after, hsource, rfl⟩
    exact isBoundary_utf8Length hsource

theorem isBoundary_zero (source : String) : IsBoundary source 0 :=
  isBoundary_utf8Length (List.nil_append _).symm

theorem isBoundary_utf8ByteSize (source : String) : IsBoundary source source.utf8ByteSize := by
  rw [← utf8Length_toList]
  exact isBoundary_utf8Length (List.append_nil _).symm

/-! ## Excerpts -/

namespace Span

/-- What stands in the range. -/
def excerpt (s : Span) (source : String) : String :=
  String.Pos.Raw.extract source ⟨s.start⟩ ⟨s.stop⟩

/-- What stands behind the range. -/
def behind (s : Span) (source : String) : String :=
  (Span.mk s.stop source.utf8ByteSize).excerpt source

/-- The ranges have nothing in common. -/
def Disjoint (s t : Span) : Prop :=
  s.stop ≤ t.start ∨ t.stop ≤ s.start

/-- The range is not empty and can be cut out of the source. -/
structure Within (s : Span) (source : String) : Prop where
  start_lt_stop : s.start < s.stop
  stop_le : s.stop ≤ source.utf8ByteSize
  start : IsBoundary source s.start
  stop : IsBoundary source s.stop

/-- The range is where the text stands in the source, between the
characters before it and those after it. -/
structure Cuts (s : Span) (source : String) (before text after : List Char) : Prop where
  source_eq : source.toList = before ++ (text ++ after)
  start_eq : s.start = utf8Length before
  stop_eq : s.stop = utf8Length before + utf8Length text

namespace Cuts

variable {s : Span} {source : String} {before text after : List Char}

theorem excerpt_eq (h : s.Cuts source before text after) : s.excerpt source = String.ofList text := by
  have hsource : source = String.ofList (before ++ text ++ after) := by
    rw [List.append_assoc, ← h.source_eq, String.ofList_toList]
  rw [excerpt, h.start_eq, h.stop_eq, hsource, utf8Length_eq_utf8Len, utf8Length_eq_utf8Len]
  exact String.extract_of_valid before text after

theorem start_add_utf8ByteSize (h : s.Cuts source before text after) :
    s.start + (s.excerpt source).utf8ByteSize = s.stop := by
  rw [h.excerpt_eq, utf8ByteSize_ofList, h.start_eq, h.stop_eq]

theorem isBoundary_start (h : s.Cuts source before text after) : IsBoundary source s.start := by
  rw [h.start_eq]
  exact isBoundary_utf8Length h.source_eq

theorem isBoundary_stop (h : s.Cuts source before text after) : IsBoundary source s.stop := by
  have hsource : source.toList = (before ++ text) ++ after := by
    rw [h.source_eq, List.append_assoc]
  rw [h.stop_eq, ← utf8Length_append]
  exact isBoundary_utf8Length hsource

theorem utf8ByteSize_eq (h : s.Cuts source before text after) :
    source.utf8ByteSize = s.stop + utf8Length after := by
  rw [← utf8Length_toList, h.source_eq, h.stop_eq]
  simp only [utf8Length_append, Nat.add_assoc]

/-- A range with something in it. -/
theorem within (h : s.Cuts source before text after) (hne : text ≠ []) : s.Within source where
  start_lt_stop := by
    have hpos := utf8Length_pos hne
    rw [h.start_eq, h.stop_eq]
    omega
  stop_le := by
    rw [h.utf8ByteSize_eq]
    exact Nat.le_add_right _ _
  start := h.isBoundary_start
  stop := h.isBoundary_stop

theorem behind_eq (h : s.Cuts source before text after) : s.behind source = String.ofList after := by
  have hrest : (Span.mk s.stop source.utf8ByteSize).Cuts source (before ++ text) after [] := by
    refine ⟨?_, ?_, ?_⟩
    · rw [h.source_eq, List.append_nil, List.append_assoc]
    · rw [h.stop_eq, utf8Length_append]
    · rw [h.utf8ByteSize_eq, h.stop_eq, utf8Length_append]
  exact hrest.excerpt_eq

end Cuts

end Span

end PagePreview
