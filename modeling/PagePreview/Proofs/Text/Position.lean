/-
PagePreview.Proofs.Text.Position — the place of an offset leads back to it.

An offset may lie beyond the end of a source or inside of a character. What
it is taken for is the greatest boundary that is not above it, and a search
that goes down byte by byte finds it: zero is a boundary, so the search is
never about to go below. A place is then a way through the source, so many
lines and so many characters of the next one, and the way of an offset ends
at its boundary and nowhere else.

* `boundaryFrom?` — the search, `exists_isGreatest_boundary` what it finds.
* `Position.Spans`, `Position.LeadsTo` — the way of a place, and its end.
* `Position.ofOffset_eq_ofText` — the place of an offset is that of the text
  in front of its boundary.
* `Position.ofOffset_exact` — the places of all offsets of a source.
-/
import PagePreview.Proofs.Text.Excerpt

namespace PagePreview

/-! ## Boundaries -/

instance (source : String) : DecidablePred (IsBoundary source) := fun offset =>
  inferInstanceAs (Decidable (String.Pos.Raw.IsValid source ⟨offset⟩))

/-- Goes down from an offset to the first boundary. If zero were none, the
search would fail, as it cannot go further down. -/
def boundaryFrom? (source : String) : Nat → Option Nat
  | 0 => if IsBoundary source 0 then some 0 else none
  | offset + 1 =>
    if IsBoundary source (offset + 1) then some (offset + 1) else boundaryFrom? source offset

/-- The search comes to an end, at the greatest boundary that is not above
its start. -/
theorem exists_isGreatest_boundary (source : String) (offset : Nat) :
    ∃ b, boundaryFrom? source offset = some b ∧
      IsGreatest {b | IsBoundary source b ∧ b ≤ offset} b := by
  induction offset with
  | zero => exact ⟨0, if_pos (isBoundary_zero source), ⟨isBoundary_zero source, Nat.le_refl 0⟩,
      fun b hb => hb.2⟩
  | succ offset ih =>
    by_cases hhere : IsBoundary source (offset + 1)
    · exact ⟨offset + 1, if_pos hhere, ⟨hhere, Nat.le_refl _⟩, fun b hb => hb.2⟩
    · obtain ⟨b, hsearch, ⟨hb, hle⟩, hgreatest⟩ := ih
      refine ⟨b, ?_, ⟨hb, Nat.le_succ_of_le hle⟩, fun b' hb' => ?_⟩
      · rw [boundaryFrom?, if_neg hhere, hsearch]
      · have hne : b' ≠ offset + 1 := fun heq => hhere (heq ▸ hb'.1)
        have hle' : b' ≤ offset + 1 := hb'.2
        exact hgreatest ⟨hb'.1, by omega⟩

/-- Behind the greatest boundary that is not above an offset, the next
character does not end before the offset. -/
theorem exists_cut {source : String} {offset b : Nat}
    (h : IsGreatest {b | IsBoundary source b ∧ b ≤ min offset source.utf8ByteSize} b) :
    ∃ before after, source.toList = before ++ after ∧ b = utf8Length before ∧ b ≤ offset ∧
      ∀ c ∈ after.head?, offset < b + c.utf8Size := by
  obtain ⟨⟨hb, hle⟩, hgreatest⟩ := h
  obtain ⟨before, after, hsource, rfl⟩ := isBoundary_iff.mp hb
  refine ⟨before, after, hsource, rfl, (le_min_iff.mp hle).1, fun c hc => ?_⟩
  obtain ⟨rest, rfl⟩ := List.head?_eq_some_iff.mp hc
  have hend : utf8Length (before ++ [c]) = utf8Length before + c.utf8Size := by simp
  have hnext : IsBoundary source (utf8Length before + c.utf8Size) :=
    hend ▸ isBoundary_utf8Length (by simp [hsource] : source.toList = (before ++ [c]) ++ rest)
  have hsize : utf8Length before + c.utf8Size ≤ source.utf8ByteSize := by
    rw [← utf8Length_toList, hsource]
    simp
  by_contra hnot
  have habove : utf8Length before + c.utf8Size ≤ utf8Length before :=
    hgreatest ⟨hnext, le_min (by omega) hsize⟩
  have hpos := c.utf8Size_pos
  omega

namespace Position

/-! ## The place behind a text -/

/-- The place that a text ends at. -/
def ofText (text : List Char) : Position :=
  text.foldl next ⟨0, 0⟩

/-- The text is made of `p.line` lines, each with its line end, and of
`p.column` characters behind them, none of which is a line end. -/
def Spans (p : Position) (text : List Char) : Prop :=
  ∃ (lines : List (List Char)) (column : List Char),
    text = lines.flatMap (· ++ ['\n']) ++ column ∧ (∀ l ∈ lines, '\n' ∉ l) ∧ '\n' ∉ column ∧
      lines.length = p.line ∧ column.length = p.column

/-- To skip the lines and then the characters leads to the offset. -/
def LeadsTo (p : Position) (source : String) (offset : Nat) : Prop :=
  ∃ before after, source.toList = before ++ after ∧ p.Spans before ∧ offset = utf8Length before

theorem foldl_next_of_notMem {cs : List Char} (h : '\n' ∉ cs) (p : Position) :
    cs.foldl next p = ⟨p.line, p.column + cs.length⟩ := by
  induction cs generalizing p with
  | nil => rfl
  | cons c cs ih =>
    have hnext : p.next c = ⟨p.line, p.column + 1⟩ := if_neg (List.ne_of_not_mem_cons h).symm
    have hcs := List.not_mem_of_not_mem_cons h
    rw [List.foldl_cons, hnext, ih hcs, List.length_cons, Nat.add_assoc, Nat.add_comm 1]

theorem foldl_next_lines {lines : List (List Char)} (h : ∀ l ∈ lines, '\n' ∉ l) (line : Nat) :
    (lines.flatMap (· ++ ['\n'])).foldl next ⟨line, 0⟩ = ⟨line + lines.length, 0⟩ := by
  induction lines generalizing line with
  | nil => rfl
  | cons l lines ih =>
    obtain ⟨hl, hlines⟩ := List.forall_mem_cons.mp h
    have hfirst : (l ++ ['\n']).foldl next ⟨line, 0⟩ = ⟨line + 1, 0⟩ := by
      rw [List.foldl_append, foldl_next_of_notMem hl]
      rfl
    rw [List.flatMap_cons, List.foldl_append, hfirst, ih hlines, List.length_cons, Nat.add_assoc,
      Nat.add_comm 1]

/-- Every text is spanned by the place that it ends at. -/
theorem spans_ofText (text : List Char) : (ofText text).Spans text := by
  induction text using List.reverseRecOn with
  | nil => exact ⟨[], [], rfl, nofun, List.not_mem_nil, rfl, rfl⟩
  | append_singleton text c ih =>
    obtain ⟨lines, column, htext, hlines, hcolumn, hline, hlength⟩ := ih
    have hlast : ofText (text ++ [c]) = (ofText text).next c := by
      rw [ofText, List.foldl_append]
      rfl
    rw [hlast, next]
    split
    next hc =>
      refine ⟨lines ++ [column], [], ?_, ?_, List.not_mem_nil, by simp [hline], rfl⟩
      · simp [htext, hc]
      · exact List.forall_mem_append.mpr ⟨hlines, List.forall_mem_singleton.mpr hcolumn⟩
    next hc =>
      refine ⟨lines, column ++ [c], by simp [htext], hlines, ?_, hline, by simp [hlength]⟩
      simpa [hcolumn] using Ne.symm hc

/-- And by no other. -/
theorem spans_iff {p : Position} {text : List Char} : p.Spans text ↔ ofText text = p := by
  constructor
  · rintro ⟨lines, column, rfl, hlines, hcolumn, hline, hlength⟩
    rw [ofText, List.foldl_append, foldl_next_lines hlines, foldl_next_of_notMem hcolumn, hlength,
      hline, Nat.zero_add, Nat.zero_add]
  · rintro rfl
    exact spans_ofText text

/-! ## The place of an offset -/

/-- To walk over a text first is to start behind it. -/
theorem walk_append (before after : List Char) (bytes : Nat) (p : Position) :
    walk p (utf8Length before + bytes) (before ++ after) = walk (before.foldl next p) bytes after := by
  induction before generalizing p with
  | nil => rw [utf8Length_nil, Nat.zero_add]; rfl
  | cons c before ih =>
    have hfits : c.utf8Size ≤ utf8Length (c :: before) + bytes := by
      rw [utf8Length_cons]
      omega
    have hrest : utf8Length (c :: before) + bytes - c.utf8Size = utf8Length before + bytes := by
      rw [utf8Length_cons]
      omega
    rw [List.cons_append, walk, if_pos hfits, hrest, ih, List.foldl_cons]

/-- A walk ends in front of a character that does not fit. -/
theorem walk_eq_self {after : List Char} {bytes : Nat} (h : ∀ c ∈ after.head?, bytes < c.utf8Size)
    (p : Position) : walk p bytes after = p := by
  cases after with
  | nil => rfl
  | cons c rest => exact if_neg (Nat.not_le.mpr (h c rfl))

theorem ofOffset_eq_ofText {source : String} {before after : List Char} {offset : Nat}
    (hsource : source.toList = before ++ after) (hle : utf8Length before ≤ offset)
    (hnext : ∀ c ∈ after.head?, offset < utf8Length before + c.utf8Size) :
    ofOffset source offset = ofText before := by
  obtain ⟨bytes, rfl⟩ := Nat.exists_eq_add_of_le hle
  rw [ofOffset, hsource, walk_append, walk_eq_self fun c hc => Nat.lt_of_add_lt_add_left (hnext c hc)]
  rfl

/-- The place of a boundary. -/
theorem ofOffset_utf8Length {source : String} {before after : List Char}
    (hsource : source.toList = before ++ after) :
    ofOffset source (utf8Length before) = ofText before :=
  ofOffset_eq_ofText hsource (Nat.le_refl _) fun c _ => Nat.lt_add_of_pos_right c.utf8Size_pos

/-- A place leads to the boundaries that it is the place of. -/
theorem leadsTo_iff {p : Position} {source : String} {offset : Nat} :
    p.LeadsTo source offset ↔ IsBoundary source offset ∧ ofOffset source offset = p := by
  constructor
  · rintro ⟨before, after, hsource, hspans, rfl⟩
    exact ⟨isBoundary_utf8Length hsource, (ofOffset_utf8Length hsource).trans (spans_iff.mp hspans)⟩
  · rintro ⟨hboundary, rfl⟩
    obtain ⟨before, after, hsource, rfl⟩ := isBoundary_iff.mp hboundary
    rw [ofOffset_utf8Length hsource]
    exact ⟨before, after, hsource, spans_ofText before, rfl⟩

/-! ## The order of places -/

/-- Lines are compared first, and columns within a line. -/
def lex (p : Position) : ℕ ×ₗ ℕ :=
  toLex (p.line, p.column)

theorem lex_lt_lex_next (p : Position) (c : Char) : p.lex < (p.next c).lex := by
  rw [lex, lex, next, Prod.Lex.toLex_lt_toLex]
  split
  · exact .inl (Nat.lt_succ_self _)
  · exact .inr ⟨rfl, Nat.lt_succ_self _⟩

theorem lex_lt_lex_foldl_next {cs : List Char} (h : cs ≠ []) (p : Position) :
    p.lex < (cs.foldl next p).lex := by
  induction cs generalizing p with
  | nil => exact absurd rfl h
  | cons c cs ih =>
    rcases eq_or_ne cs [] with rfl | hcs
    · exact lex_lt_lex_next p c
    · exact (lex_lt_lex_next p c).trans (ih hcs (p.next c))

/-- A boundary further behind has a place further behind. -/
theorem strictMonoOn_ofOffset (source : String) :
    StrictMonoOn (fun b => (ofOffset source b).lex) {b | IsBoundary source b} := by
  intro a ha b hb hlt
  obtain ⟨before, after, hsource, rfl⟩ := isBoundary_iff.mp ha
  obtain ⟨before', after', hsource', rfl⟩ := isBoundary_iff.mp hb
  have hprefix : before <+: before' := by
    rcases List.prefix_or_prefix_of_prefix ⟨after, hsource.symm⟩ ⟨after', hsource'.symm⟩ with h | h
    · exact h
    · obtain ⟨more, rfl⟩ := h
      rw [utf8Length_append] at hlt
      omega
  obtain ⟨more, rfl⟩ := hprefix
  have hmore : more ≠ [] := by
    rintro rfl
    rw [List.append_nil] at hlt
    exact Nat.lt_irrefl _ hlt
  simp only [ofOffset_utf8Length hsource, ofOffset_utf8Length hsource']
  rw [ofText, ofText, List.foldl_append]
  exact lex_lt_lex_foldl_next hmore _

theorem injOn_ofOffset (source : String) :
    Set.InjOn (ofOffset source) {b | IsBoundary source b} := fun _ ha _ hb heq =>
  (strictMonoOn_ofOffset source).injOn ha hb (congrArg lex heq)

/-- An offset, moved to the end where it lies beyond it, has a greatest
boundary that is not above it, and the search from there finds it. The place
of the offset leads to this boundary and to nothing else. Different boundaries
have different places, in the order of the boundaries. -/
theorem ofOffset_exact (source : String) :
    (∀ offset, ∃ b,
      boundaryFrom? source (min offset source.utf8ByteSize) = some b ∧
      IsGreatest {b | IsBoundary source b ∧ b ≤ min offset source.utf8ByteSize} b ∧
      ∀ b', (ofOffset source offset).LeadsTo source b' ↔ b' = b) ∧
    Set.InjOn (ofOffset source) {b | IsBoundary source b} ∧
    StrictMonoOn (fun b => (ofOffset source b).lex) {b | IsBoundary source b} := by
  refine ⟨fun offset => ?_, injOn_ofOffset source, strictMonoOn_ofOffset source⟩
  obtain ⟨b, hsearch, hgreatest⟩ :=
    exists_isGreatest_boundary source (min offset source.utf8ByteSize)
  have hboundary : IsBoundary source b := hgreatest.1.1
  obtain ⟨before, after, hsource, rfl, hle, hnext⟩ := exists_cut hgreatest
  have hplace : ofOffset source (utf8Length before) = ofOffset source offset := by
    rw [ofOffset_utf8Length hsource, ofOffset_eq_ofText hsource hle hnext]
  refine ⟨utf8Length before, hsearch, hgreatest, fun b' => ?_⟩
  rw [leadsTo_iff]
  constructor
  · rintro ⟨hb', heq⟩
    exact injOn_ofOffset source hb' hboundary (heq.trans hplace.symm)
  · rintro rfl
    exact ⟨hboundary, hplace⟩

/-- An offset inside of a character, and one beyond the end. -/
example : ofOffset "ab\nçd\n" 4 = ⟨1, 0⟩ ∧ ofOffset "ab\nçd\n" 999 = ⟨2, 0⟩ := by
  decide +kernel

end Position

end PagePreview
