/-
PagePreview.Proofs.Analysis.Ranges — what a diagnostic points at, as a part
of the source.

A warning points at a call or at a value, and both are runs of words: the
range lies inside of the source, so nothing is lost when it is clamped, and
the source can be cut at both of its ends. An error is about the braces of
the whole source and points at the first byte, whatever stands there. That is
the first character if the character has a single byte, and only then.

* `isBoundary_one_iff` — when the first byte is the first character.
* `mem_lint_cases` — where the range of a diagnostic comes from.
* `lint_ranges` — the ranges of all diagnostics.
-/
import PagePreview.Diagnostic
import PagePreview.Proofs.Analysis.Positions

namespace PagePreview

/-! ## The first byte -/

/-- The first byte is a part of the first character, and the whole of it only
if the character has no other. -/
theorem isBoundary_one_iff {source : String} {c : Char} {rest : List Char}
    (h : source.toList = c :: rest) : IsBoundary source 1 ↔ c.utf8Size = 1 := by
  constructor
  · intro hone
    obtain ⟨before, after, hsplit, hsize⟩ := isBoundary_iff.mp hone
    rw [h] at hsplit
    cases before with
    | nil => exact absurd hsize Nat.one_ne_zero
    | cons d others =>
      obtain ⟨rfl, -⟩ := List.cons.inj hsplit
      rw [utf8Length_cons] at hsize
      have hpos := c.utf8Size_pos
      omega
  · intro hsize
    have hfirst : IsBoundary source (utf8Length [c]) := isBoundary_utf8Length h
    rwa [utf8Length_cons, utf8Length_nil, hsize] at hfirst

/-- A range that can be cut out is not changed when it is clamped. -/
theorem Span.Within.clamp_eq {s : Span} {source : String} (h : s.Within source) :
    s.clamp source.utf8ByteSize = s := by
  have hstart := h.start_lt_stop
  have hstop := h.stop_le
  simp only [Span.clamp, Nat.min_eq_left hstop, Nat.min_eq_left (Nat.le_trans hstart.le hstop)]

/-! ## Where the ranges come from -/

theorem Analysis.braceBalance_empty : (Analysis.ofSource "").braceBalance = 0 := by
  decide +kernel

namespace Diagnostic

variable {d : Diagnostic} {sourceEnd : Nat}

theorem mem_ofBalance {balance : Int} (h : d ∈ ofBalance sourceEnd balance) :
    balance ≠ 0 ∧ d.finding.severity = .error ∧ d.span = Span.clamp sourceEnd ⟨0, 1⟩ := by
  unfold ofBalance at h
  split_ifs at h with hmissing hextra
  · obtain rfl := List.mem_singleton.mp h
    exact ⟨by omega, rfl, rfl⟩
  · obtain rfl := List.mem_singleton.mp h
    exact ⟨by omega, rfl, rfl⟩
  · exact nomatch h

theorem mem_ofPlacement {allowed : Bool} {finding : Finding} {span : Span}
    (h : d ∈ ofPlacement allowed finding span) : d = ⟨finding, span⟩ := by
  unfold ofPlacement at h
  split at h
  · exact nomatch h
  · exact List.mem_singleton.mp h

theorem mem_ofName {known : List String} {finding : String → Finding} {span : Span}
    {value : Option String} (h : d ∈ ofName known finding span value) :
    ∃ name, d = ⟨finding name, span⟩ := by
  cases value with
  | none => exact nomatch h
  | some name =>
    rw [ofName] at h
    split at h
    · exact ⟨name, List.mem_singleton.mp h⟩
    · exact nomatch h

/-- What is said about a property call points at the call or at its value. -/
theorem mem_ofUsage {symbols : ProjectSymbols} {u : PropertyUsage}
    (h : d ∈ ofUsage sourceEnd symbols u) :
    d.finding.severity = .warning ∧
      (d.span = u.callSpan.clamp sourceEnd ∨
        ∃ text s, u.value = some (text, s) ∧ d.span = s.clamp sourceEnd) := by
  have hvalue : ∀ s, s = (u.value.map (·.2.clamp sourceEnd)).getD (u.callSpan.clamp sourceEnd) →
      s = u.callSpan.clamp sourceEnd ∨
        ∃ text t, u.value = some (text, t) ∧ s = t.clamp sourceEnd := by
    rintro s rfl
    cases hu : u.value with
    | none => exact .inl rfl
    | some value => exact .inr ⟨value.1, value.2, rfl, rfl⟩
  unfold ofUsage at h
  cases hp : u.property with
  | css =>
    rw [hp] at h
    exact nomatch h
  | bind =>
    rw [hp] at h
    rcases List.mem_append.mp h with h | h
    · rw [mem_ofPlacement h]
      exact ⟨rfl, .inl rfl⟩
    · obtain ⟨name, rfl⟩ := mem_ofName h
      exact ⟨rfl, hvalue _ rfl⟩
  | onClick =>
    rw [hp] at h
    rcases List.mem_append.mp h with h | h
    · rw [mem_ofPlacement h]
      exact ⟨rfl, .inl rfl⟩
    · obtain ⟨name, rfl⟩ := mem_ofName h
      exact ⟨rfl, hvalue _ rfl⟩

end Diagnostic

/-- A diagnostic is an error about the braces of a source that is not empty,
or a warning whose range can be cut out. -/
theorem mem_lint_cases {source : String} {symbols : ProjectSymbols} {d : Diagnostic}
    (h : d ∈ lint source symbols) :
    (source ≠ "" ∧ d.finding.severity = .error ∧ d.span = Span.clamp source.utf8ByteSize ⟨0, 1⟩) ∨
      (d.finding.severity = .warning ∧ d.span.Within source) := by
  rcases List.mem_append.mp h with h | h
  · rcases List.mem_append.mp h with h | h
    · obtain ⟨hbalance, herror, hspan⟩ := Diagnostic.mem_ofBalance h
      refine .inl ⟨?_, herror, hspan⟩
      rintro rfl
      exact hbalance Analysis.braceBalance_empty
    · obtain ⟨c, hc, rfl⟩ := List.mem_map.mp h
      have hwithin : c.span.Within source :=
        Analysis.within_of_mem_callSpans (List.mem_append_right _ (List.mem_map_of_mem hc))
      refine .inr ⟨rfl, ?_⟩
      rw [hwithin.clamp_eq]
      exact hwithin
  · obtain ⟨u, hu, hd⟩ := List.mem_flatMap.mp h
    obtain ⟨hwarning, hspan⟩ := Diagnostic.mem_ofUsage hd
    refine .inr ⟨hwarning, ?_⟩
    rcases hspan with hspan | ⟨text, s, hvalue, hspan⟩
    · have hwithin : u.callSpan.Within source :=
        Analysis.within_of_mem_callSpans (List.mem_append_left _ (List.mem_map_of_mem hu))
      rw [hspan, hwithin.clamp_eq]
      exact hwithin
    · obtain ⟨-, -, hholds, -⟩ := Analysis.value_of_mem_properties hu hvalue
      rw [hspan, hholds.within.clamp_eq]
      exact hholds.within

/-! ## The ranges of diagnostics -/

/-- The range of a diagnostic is not empty, does not reach beyond the source,
and starts where a character does. It also ends where a character does,
except for an error on a source whose first character has several bytes. -/
theorem lint_ranges {source : String} {symbols : ProjectSymbols} {d : Diagnostic}
    (h : d ∈ lint source symbols) :
    d.span.start < d.span.stop ∧ d.span.stop ≤ source.utf8ByteSize ∧
      IsBoundary source d.span.start ∧
      (IsBoundary source d.span.stop ↔
        d.finding.severity = .warning ∨ ∀ c ∈ source.toList.head?, c.utf8Size = 1) := by
  rcases mem_lint_cases h with ⟨hne, herror, hspan⟩ | ⟨hwarning, hwithin⟩
  · have hchars : source.toList ≠ [] := fun hnil => hne (String.toList_eq_nil_iff.mp hnil)
    obtain ⟨c, rest, hsource⟩ := List.exists_cons_of_ne_nil hchars
    have hlength : 1 ≤ source.utf8ByteSize := by
      rw [← utf8Length_toList]
      exact utf8Length_pos hchars
    have hclamp : Span.clamp source.utf8ByteSize ⟨0, 1⟩ = ⟨0, 1⟩ := by
      simp only [Span.clamp, Nat.zero_min, Nat.min_eq_left hlength]
    have hstart : IsBoundary source 0 := isBoundary_utf8Length (List.nil_append _).symm
    rw [hspan, hclamp]
    refine ⟨Nat.zero_lt_one, hlength, hstart, ?_⟩
    rw [isBoundary_one_iff hsource, herror, hsource]
    simp
  · exact ⟨hwithin.start_lt_stop, hwithin.stop_le, hwithin.start,
      iff_of_true hwithin.stop (.inl hwarning)⟩

/-- A key that nobody knows, behind a character of two bytes and in front of
a brace that is not closed. -/
def accented : String := "é wce_bind(\"k\") \x7b"

theorem lint_ranges_accented :
    ⟨.unknownKey "k", ⟨12, 15⟩⟩ ∈ lint accented ⟨[], ["count"]⟩ ∧
      12 < 15 ∧ 15 ≤ accented.utf8ByteSize ∧ IsBoundary accented 12 ∧
      (IsBoundary accented 15 ↔
        Finding.severity (.unknownKey "k") = .warning ∨
          ∀ c ∈ accented.toList.head?, c.utf8Size = 1) := by
  have hmem : ⟨.unknownKey "k", ⟨12, 15⟩⟩ ∈ lint accented ⟨[], ["count"]⟩ := by
    decide +kernel
  exact ⟨hmem, lint_ranges hmem⟩

/-- There the error about the braces ends inside of the first character. -/
theorem lint_ranges_firstCharacter :
    ∃ d ∈ lint accented .none, d.finding = .missingBrace ∧ ¬IsBoundary accented d.span.stop := by
  refine ⟨⟨.missingBrace, ⟨0, 1⟩⟩, by decide +kernel, rfl, ?_⟩
  rw [isBoundary_one_iff (c := 'é') rfl]
  decide

end PagePreview
