/-
PagePreview.Proofs.Source.Reprint — the words of a source, written down
again.

A source can be written in a uniform way: its words in order, with one space
between two of them, and every quoted text closed and escaped. The comments
and the line breaks are gone, but the words are the same. The tree, the
faults and the findings of the analysis hang on nothing else, apart from the
places in them.

* `reprint` — a source in the uniform way.
* `map_lexeme_tokens_reprint` — it has the words of the source.
* `Analysis.ofSource_congr` — the analysis hangs on the words alone.
* `reprint_reads_alike` — so a source and its reprint are read alike.
-/
import PagePreview.Proofs.Analysis.Relocate
import PagePreview.Proofs.Document.Places
import PagePreview.Proofs.Source.Tiling

namespace PagePreview

/-- The words of the source, with one space between two of them. -/
def reprint (source : String) : String :=
  String.ofList (writeAll ((tokens source).map (·.lexeme)))

/-- A source has no words but proper ones. -/
theorem proper_of_mem_tokens {source : String} {t : Token} (h : t ∈ tokens source) :
    t.lexeme.Proper := by
  obtain ⟨front, written, after, -, -, hspells⟩ := exists_cuts h
  exact hspells.proper

theorem map_lexeme_tokens_reprint (source : String) :
    (tokens (reprint source)).map (·.lexeme) = (tokens source).map (·.lexeme) := by
  refine map_lexeme_tokens_writeAll _ fun l hl => ?_
  obtain ⟨t, ht, rfl⟩ := List.mem_map.mp hl
  exact proper_of_mem_tokens ht

/-- Every text can be quoted. -/
theorem map_lexeme_tokens_quoted (text : String) :
    (tokens (String.ofList (Lexeme.str text).written)).map (·.lexeme) = [.str text] := by
  have hone : writeAll [.str text] = (Lexeme.str text).written := by simp [writeAll]
  rw [← hone]
  exact map_lexeme_tokens_writeAll [.str text] (by simp [Lexeme.Proper])

/-! ## What hangs on the words alone -/

section SameWords

variable {a b : String} (h : (tokens a).map (·.lexeme) = (tokens b).map (·.lexeme))

include h

theorem map_unplaced_congr : (tokens a).map Token.unplaced = (tokens b).map Token.unplaced := by
  have htokens := congrArg (List.map Lexeme.token) h
  rw [List.map_map, List.map_map] at htokens
  exact htokens

theorem Document.parse_congr :
    (parse a).root = (parse b).root ∧
      (parse a).problems.map (·.fault) = (parse b).problems.map (·.fault) := by
  obtain ⟨hroot, hfaults⟩ := parse_unplaced a
  obtain ⟨hroot', hfaults'⟩ := parse_unplaced b
  rw [map_unplaced_congr h] at hroot hfaults
  exact ⟨hroot.trans hroot'.symm, hfaults.trans hfaults'.symm⟩

theorem Analysis.ofSource_congr :
    (ofSource a).relocate (fun _ => 0) = (ofSource b).relocate (fun _ => 0) := by
  have hfound (source : String) : (ofSource source).relocate (fun _ => 0) =
      ofMarks 0 (Mark.ofTokens ((tokens source).map Token.unplaced)) := by
    rw [ofSource, ← ofMarks_relocate, ← Mark.ofTokens_relocate]
    rfl
  rw [hfound, hfound, map_unplaced_congr h]

end SameWords

/-- A source that is written in the uniform way has the words of the source,
whatever these are, and is read as the source is: the tree and the messages
are the same, and so is all that the analysis finds but for the places.
Every text at all can be quoted. -/
theorem reprint_reads_alike (source : String) :
    (tokens (reprint source)).map (·.lexeme) = (tokens source).map (·.lexeme) ∧
      (∀ text : String,
        (tokens (String.ofList (Lexeme.str text).written)).map (·.lexeme) = [.str text]) ∧
      (Document.parse (reprint source)).root = (Document.parse source).root ∧
      (Document.parse (reprint source)).problems.map (·.fault.message) =
        (Document.parse source).problems.map (·.fault.message) ∧
      (Analysis.ofSource (reprint source)).properties.map
          (fun u => (u.property, u.value.map (·.1), u.enclosing)) =
        (Analysis.ofSource source).properties.map
          (fun u => (u.property, u.value.map (·.1), u.enclosing)) ∧
      (Analysis.ofSource (reprint source)).unknownCalls.map (·.name) =
        (Analysis.ofSource source).unknownCalls.map (·.name) ∧
      (Analysis.ofSource (reprint source)).braceBalance =
        (Analysis.ofSource source).braceBalance := by
  have hwords := map_lexeme_tokens_reprint source
  obtain ⟨hroot, hfaults⟩ := Document.parse_congr hwords
  have hmessages := congrArg (List.map Fault.message) hfaults
  rw [List.map_map, List.map_map] at hmessages
  obtain ⟨hproperties, hunknown, hbalance⟩ :=
    Analysis.mk.inj (Analysis.ofSource_congr hwords)
  refine ⟨hwords, map_lexeme_tokens_quoted, hroot, hmessages, ?_, ?_, hbalance⟩
  · have hfindings := congrArg
      (List.map fun u : PropertyUsage => (u.property, u.value.map (·.1), u.enclosing)) hproperties
    simpa [List.map_map, Function.comp_def, PropertyUsage.relocate] using hfindings
  · have hnames := congrArg (List.map UnknownCall.name) hunknown
    simpa [List.map_map, Function.comp_def, UnknownCall.relocate] using hnames

end PagePreview
