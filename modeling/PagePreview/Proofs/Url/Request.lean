/-
PagePreview.Proofs.Url.Request — what a URL that is put together says.

A query that is written from pairs of texts is read as these pairs: no
text holds a character that separates names, values or pairs, as it is
encoded. Neither does a query hold the mark of a fragment.

* `Query.text` — pairs as a query.
* `Query.parse_text` — a query that is written is read.
* `Request.ofUrl_marked` — the request of an address, a query and a
  fragment.
-/
import PagePreview.Proofs.Url.Percent
import PagePreview.Url.Request

namespace PagePreview

namespace Query

/-- A pair as it is written in a query. -/
def pairText (p : String × String) : List Char :=
  (Percent.encode p.1).toList ++ '=' :: (Percent.encode p.2).toList

/-- Pairs as a query. -/
def text (ps : List (String × String)) : List Char :=
  ['&'].intercalate (ps.map pairText)

theorem pair_pairText (p : String × String) : pair (pairText p) = p := by
  have hname : '=' ∉ (Percent.encode p.1).toList :=
    Percent.notMem_encode (by decide) (by decide) p.1
  simp only [pair, pairText, splitFirst_append hname, Option.getD_some, Percent.decode_encode]

theorem pairText_ne_nil (p : String × String) : pairText p ≠ [] := by
  simp [pairText]

theorem notMem_pairText {c : Char} (hplain : ¬Percent.isPlain c) (hescape : c ≠ '%')
    (hequals : c ≠ '=') (p : String × String) : c ∉ pairText p := by
  have hname := Percent.notMem_encode hplain hescape p.1
  have hvalue := Percent.notMem_encode hplain hescape p.2
  simp [pairText, hname, hvalue, hequals]

theorem notMem_text {c : Char} (hplain : ¬Percent.isPlain c) (hescape : c ≠ '%')
    (hequals : c ≠ '=') (hpairs : c ≠ '&') : ∀ ps : List (String × String), c ∉ text ps
  | [] => List.not_mem_nil
  | [p] => by
      have hp := notMem_pairText hplain hescape hequals p
      simpa [text, List.intercalate] using hp
  | p :: q :: ps => by
      have hp := notMem_pairText hplain hescape hequals p
      have hps := notMem_text hplain hescape hequals hpairs (q :: ps)
      have hsplit : text (p :: q :: ps) = pairText p ++ '&' :: text (q :: ps) := by
        simp [text, List.intercalate]
      simp [hsplit, hp, hps, hpairs]

/-- A query that is written from pairs is read as these pairs. -/
theorem parse_text (ps : List (String × String)) : parse (text ps) = ps := by
  cases ps with
  | nil => rfl
  | cons p ps =>
    have hparts : (text (p :: ps)).splitOn '&' = (p :: ps).map pairText := by
      refine List.splitOn_intercalate '&' (fun part hpart => ?_) (by simp)
      obtain ⟨q, -, rfl⟩ := List.mem_map.mp hpart
      exact notMem_pairText (by decide) (by decide) (by decide) q
    have hnonempty : ((p :: ps).map pairText).filter (· ≠ []) = (p :: ps).map pairText :=
      List.filter_eq_self.mpr fun part hpart => by
        obtain ⟨q, -, rfl⟩ := List.mem_map.mp hpart
        simpa using pairText_ne_nil q
    rw [parse, hparts, hnonempty, List.map_map]
    exact List.map_id'' pair_pairText (p :: ps)

end Query

/-! ## URLs -/

/-- A part of a URL that need not be there, behind its mark. -/
def marked (mark : Char) : Option (List Char) → List Char
  | none => []
  | some part => mark :: part

/-- The text in front of a part and the part are told apart at the mark. -/
theorem splitFirst_marked {mark : Char} {before : List Char} (h : mark ∉ before)
    (part : Option (List Char)) : splitFirst mark (before ++ marked mark part) = (before, part) := by
  cases part with
  | none => rw [marked, List.append_nil, splitFirst_of_not_mem h]
  | some part => exact splitFirst_append h part

theorem notMem_marked {c mark : Char} {part : Option (List Char)} (hmark : c ≠ mark)
    (h : ∀ cs ∈ part, c ∉ cs) : c ∉ marked mark part := by
  cases part with
  | none => exact List.not_mem_nil
  | some part => exact List.not_mem_cons_of_ne_of_not_mem hmark (h part rfl)

namespace Request

/-- A URL is taken apart at its two marks. -/
theorem ofUrl_marked {method url : String} {address : List Char}
    {query fragment : Option (List Char)}
    (hurl : url.toList = address ++ marked '?' query ++ marked '#' fragment)
    (hquestion : '?' ∉ address) (hhash : '#' ∉ address) (hquery : ∀ q ∈ query, '#' ∉ q) :
    ofUrl method url =
      ⟨methodOf method, String.ofList (pathOf address), Query.parse (query.getD [])⟩ := by
  have hmarked : '#' ∉ marked '?' query := notMem_marked (by decide) hquery
  have hfront : '#' ∉ address ++ marked '?' query := by
    simp [hhash, hmarked]
  simp only [ofUrl, hurl, splitFirst_marked hfront, splitFirst_marked hquestion]

/-- In particular a URL of a path and a query. -/
theorem ofUrl_query {method url : String} {path query : List Char}
    (hurl : url.toList = path ++ '?' :: query) (hpath : '?' ∉ path) (hfragment : '#' ∉ path)
    (hquery : '#' ∉ query) :
    ofUrl method url = ⟨methodOf method, String.ofList (pathOf path), Query.parse query⟩ := by
  have hparts : url.toList = path ++ marked '?' (some query) ++ marked '#' none := by
    rw [hurl, marked, marked, List.append_nil]
  exact ofUrl_marked hparts hpath hfragment (by simpa using hquery)

end Request

end PagePreview
