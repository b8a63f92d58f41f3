/-
PagePreview.Proofs.Backend.Bootstrap — a configuration inside of a page is
the configuration.

A configuration that was read holds finite numbers, effects that do
something, and values that fit into the limit of nesting with room for the
two objects that are written around them. So it is written as a value that
a text can hold, the text is read as that value, and the lenient reader
finds nothing in the value that it has to leave out.

* `Bootstrap.Normal` — what a configuration is like that was read.
* `Bootstrap.normal_of_ofValue` — a configuration that was read.
* `Bootstrap.ofValue_sorted_toJson` — a configuration that is written is
  read, with no report.
* `Bootstrap.parse?_inlineJson` — a configuration inside of a page.
-/
import PagePreview.Backend.Session
import PagePreview.Proofs.Backend.Effect
import PagePreview.Proofs.Json.Guard

namespace PagePreview

namespace Bootstrap

open Json (depthLimit)

/-- The levels of nesting that are left for an entry of a table, which has
two objects around it. -/
def entryLevels : Nat := 125

/-- A configuration with finite numbers, effects that do something, and
values that a text can hold. -/
structure Normal (b : Bootstrap) : Prop where
  interval : ∀ x, b.pollIntervalMs = some x → x.isFinite
  handlers : ∀ e ∈ b.handlerEffects.entries, e.2.Normal ∧ e.2.toJson.Fits entryLevels
  hooks : ∀ e ∈ b.modelUpdateEffects.entries, e.2.Normal ∧ e.2.toJson.Fits entryLevels
  lists : ∀ e ∈ b.lists.entries,
    (Json.array e.2).Fits entryLevels ∧ (Json.array e.2).sorted = .array e.2

/-! ## Configurations that were read -/

theorem normal_empty : empty.Normal :=
  ⟨by simp [empty], by simp [empty, Table.empty], by simp [empty, Table.empty],
    by simp [empty, Table.empty]⟩

/-- A table that is read from entries has no values but those that were read. -/
theorem exists_of_mem_readEntries {α : Type} {read? : Json → Option α}
    (dropped : String → LogRecord) {entries : List (String × Json)} {e : String × α}
    (h : e ∈ (readEntries read? dropped entries).1.entries) :
    ∃ m ∈ entries, read? m.2 = some e.2 := by
  obtain ⟨v, hmem, hread⟩ := mem_of_mem_filterMap (Table.mem_of_mem_ofList h)
  exact ⟨(e.1, v), hmem, hread⟩

section

variable {v : Json} (hfits : v.Fits depthLimit) (hsorted : v.sorted = v)

include hfits hsorted

/-- A member of a value that was read. -/
theorem fits_of_member? {name : String} {w : Json} (h : v.member? name = some w) :
    w.Fits (entryLevels + 1) ∧ w.sorted = w :=
  ⟨Json.fits_of_member? hfits h, Json.sorted_of_member? hsorted h⟩

/-- An entry of a field of a value that was read. -/
theorem fits_of_mem_entriesOf {field : String} {e : String × Json} (h : e ∈ entriesOf v field) :
    e.2.Fits entryLevels ∧ e.2.sorted = e.2 := by
  unfold entriesOf at h
  cases hread : (v.member? field).bind (·.members?) with
  | none =>
    rw [hread] at h
    exact absurd h List.not_mem_nil
  | some members =>
    rw [hread] at h
    obtain ⟨w, hmember, hmembers⟩ := Option.bind_eq_some_iff.mp hread
    obtain ⟨hwfits, hwsorted⟩ := fits_of_member? hfits hsorted hmember
    cases w with
    | object members' =>
      obtain rfl := Option.some.inj hmembers
      exact ⟨Json.fitsMembers_iff.mp hwfits e h, (Json.sorted_of_mem_object hwsorted).2 e h⟩
    | _ => exact nomatch hmembers

theorem normal_of_effectTable {field : String} {e : String × EffectSet}
    (h : e ∈ (effectTable v field).1.entries) : e.2.Normal ∧ e.2.toJson.Fits entryLevels := by
  obtain ⟨m, hm, hread⟩ := exists_of_mem_readEntries _ h
  obtain ⟨hmfits, hmsorted⟩ := fits_of_mem_entriesOf hfits hsorted hm
  exact EffectSet.normal_of_entry? hmfits hmsorted hread

/-- A configuration that was read. -/
theorem normal_of_ofValue : (ofValue v).1.Normal := by
  cases v with
  | object members =>
    refine ⟨fun x hx => ?_, fun e he => normal_of_effectTable hfits hsorted he,
      fun e he => normal_of_effectTable hfits hsorted he, fun e he => ?_⟩
    · obtain ⟨n, hn, rfl⟩ := Option.map_eq_some_iff.mp hx
      obtain ⟨w, hw, hnumber⟩ := Option.bind_eq_some_iff.mp hn
      cases w with
      | number n' =>
        obtain rfl := Option.some.inj hnumber
        exact Json.Number.isFinite_toDouble (fits_of_member? hfits hsorted hw).1
      | _ => exact nomatch hnumber
    · obtain ⟨m, hm, hread⟩ := exists_of_mem_readEntries .listDropped he
      have hm' := fits_of_mem_entriesOf hfits hsorted hm
      unfold items? at hread
      split at hread
      next items heq =>
        obtain rfl := Option.some.inj hread
        rwa [heq] at hm'
      next => exact nomatch hread
  | _ => exact normal_empty

end

/-! ## Configurations that are written -/

/-- A table as a field, if it has entries. -/
def tableValue? {α : Type} (toJson : α → Json) (t : Table α) : Option Json :=
  if t.entries = [] then none else some (.object (t.entries.map fun e => (e.1, toJson e.2)))

/-- The fields that have a value. -/
def present (fs : List (String × Option Json)) : List (String × Json) :=
  fs.flatMap fun f => optionalMember f.1 f.2

/-- The fields of a configuration, with their values where they say
something. -/
def fields (b : Bootstrap) : List (String × Option Json) :=
  [("pollIntervalMs", b.pollIntervalMs.map fun ms => .number (.double ms)),
   ("initialData", tableValue? .string b.initialData),
   ("handlerEffects", tableValue? EffectSet.toJson b.handlerEffects),
   ("modelUpdateEffects", tableValue? EffectSet.toJson b.modelUpdateEffects),
   ("lists", tableValue? .array b.lists),
   ("onTriggerLog", b.onTriggerLog.map .bool),
   ("onModelUpdateLog", b.onModelUpdateLog.map .bool)]

theorem optionalMember_tableValue? {α : Type} (name : String) (toJson : α → Json) (t : Table α) :
    optionalMember name (tableValue? toJson t) = tableMember name toJson t := by
  unfold tableValue? tableMember
  split <;> rfl

theorem toJson_eq (b : Bootstrap) : b.toJson = .object (present b.fields) := by
  simp [toJson, present, fields, optionalMember_tableValue?]

theorem present_eq (fs : List (String × Option Json)) :
    present fs = fs.filterMap fun f => f.2.map (f.1, ·) := by
  rw [List.filterMap_eq_flatMap_toList, present]
  refine List.flatMap_congr fun f _ => ?_
  cases f.2 <;> rfl

/-- The value of a field, among the fields that have one. -/
theorem lookup_present (k : String) {fs : List (String × Option Json)}
    (h : (fs.map (·.1)).Nodup) : (present fs).lookup k = (fs.lookup k).join := by
  rw [present_eq]
  exact lookup_filterMap id k h

theorem sortedMembers_present (fs : List (String × Option Json)) :
    Json.sortedMembers (present fs) = present (fs.map fun f => (f.1, f.2.map Json.sorted)) := by
  rw [Json.sortedMembers_eq, present, present, List.map_flatMap, List.flatMap_map]
  refine List.flatMap_congr fun f _ => ?_
  cases f.2 <;> rfl

theorem sublist_present (fs : List (String × Option Json)) :
    ((present fs).map (·.1)).Sublist (fs.map (·.1)) := by
  rw [present_eq]
  exact sublist_filterMap id fs

/-- A member of a configuration that is written. -/
theorem member?_sorted_toJson (b : Bootstrap) (name : String) :
    b.toJson.sorted.member? name = ((b.fields.lookup name).join).map Json.sorted := by
  have hnames : (b.fields.map (·.1)).Nodup := by
    simp [fields]
  have hsorted : ((b.fields.map fun f => (f.1, f.2.map Json.sorted)).map (·.1)).Nodup := by
    rwa [List.map_map]
  have hlookup := Table.get?_ofList
    ((sublist_present (b.fields.map fun f => (f.1, f.2.map Json.sorted))).nodup hsorted) name
  rw [toJson_eq, Json.sorted, sortedMembers_present]
  refine hlookup.trans ?_
  rw [lookup_present name hsorted, lookup_map_snd]
  cases b.fields.lookup name <;> rfl

/-- The entries of a table that is written. -/
theorem entriesOf_of_tableValue? {α : Type} {f : α → Json} {t : Table α} {v : Json} {field : String}
    (h : v.member? field = (tableValue? f t).map Json.sorted) :
    entriesOf v field = t.entries.map fun e => (e.1, (f e.2).sorted) := by
  unfold entriesOf
  rw [h, tableValue?]
  split
  next hnil => rw [hnil]; rfl
  next =>
    have hkeys : (t.entries.map fun e => (e.1, (f e.2).sorted)).Pairwise (·.1 < ·.1) := by
      simpa [List.pairwise_map] using t.sorted
    rw [Option.map_some, Json.sorted, Json.sortedMembers_eq, List.map_map]
    exact Table.entries_ofList hkeys

/-- Entries that can all be read make their table, with no report. -/
theorem readEntries_of_forall {α : Type} {read? : Json → Option α} (dropped : String → LogRecord)
    {f : α → Json} {t : Table α} (h : ∀ e ∈ t.entries, read? (f e.2) = some e.2) :
    readEntries read? dropped (t.entries.map fun e => (e.1, f e.2)) = (t, []) := by
  have hkept : (t.entries.map fun e => (e.1, f e.2)).filterMap
      (fun e => (read? e.2).map (e.1, ·)) = t.entries := by
    rw [List.filterMap_map]
    refine (List.filterMap_congr fun e he => ?_).trans List.filterMap_some
    rw [Function.comp_apply, h e he]
    rfl
  have hlost : (t.entries.map fun e => (e.1, f e.2)).filter (fun e => (read? e.2).isNone) = [] :=
    List.filter_eq_nil_iff.mpr fun m hm => by
      obtain ⟨e, he, rfl⟩ := List.mem_map.mp hm
      simp [h e he]
  rw [readEntries, hkept, hlost, Table.ofList_entries]
  rfl

/-- A table of effects that is written is read. -/
theorem effectTable_of_tableValue? {t : Table EffectSet} {v : Json} {field : String}
    (h : v.member? field = (tableValue? EffectSet.toJson t).map Json.sorted)
    (hnormal : ∀ e ∈ t.entries, e.2.Normal) : effectTable v field = (t, []) := by
  rw [effectTable, entriesOf_of_tableValue? h]
  exact readEntries_of_forall (f := fun es => es.toJson.sorted) _ fun e he =>
    EffectSet.entry?_sorted (hnormal e he)

/-- A configuration that is written is read, with no report. -/
theorem ofValue_sorted_toJson {b : Bootstrap} (h : b.Normal) :
    ofValue b.toJson.sorted = (b, []) := by
  have hobject : ofValue b.toJson.sorted = ofObject b.toJson.sorted := by
    rw [toJson_eq, Json.sorted]
    rfl
  have hmember := member?_sorted_toJson b
  generalize b.toJson.sorted = v at hobject hmember
  have hinterval : ((v.member? "pollIntervalMs").bind (·.number?)).map (·.toDouble) =
      b.pollIntervalMs := by
    rw [hmember]
    change (((b.pollIntervalMs.map _).map _).bind _).map _ = _
    cases b.pollIntervalMs <;> rfl
  have hdata : Table.ofList ((entriesOf v "initialData").map fun e => (e.1, e.2.pageText)) =
      b.initialData := by
    rw [entriesOf_of_tableValue? (hmember "initialData"), List.map_map]
    exact (congrArg Table.ofList (List.map_id' b.initialData.entries)).trans
      (Table.ofList_entries b.initialData)
  have hlists : readEntries items? .listDropped (entriesOf v "lists") = (b.lists, []) := by
    rw [entriesOf_of_tableValue? (hmember "lists")]
    exact readEntries_of_forall (f := fun items => (Json.array items).sorted) _ fun e he => by
      rw [(h.lists e he).2]
      rfl
  have htrigger : (v.member? "onTriggerLog").bind (·.bool?) = b.onTriggerLog := by
    rw [hmember]
    change ((b.onTriggerLog.map _).map _).bind _ = _
    cases b.onTriggerLog <;> rfl
  have hupdate : (v.member? "onModelUpdateLog").bind (·.bool?) = b.onModelUpdateLog := by
    rw [hmember]
    change ((b.onModelUpdateLog.map _).map _).bind _ = _
    cases b.onModelUpdateLog <;> rfl
  have hhandlers := effectTable_of_tableValue? (hmember "handlerEffects")
    fun e he => (h.handlers e he).1
  have hhooks := effectTable_of_tableValue? (hmember "modelUpdateEffects")
    fun e he => (h.hooks e he).1
  rw [hobject, ofObject]
  simp only [hinterval, hdata, hhandlers, hhooks, hlists, htrigger, hupdate]
  rfl

theorem fits_tableValue? {α : Type} {f : α → Json} {t : Table α} {v : Json}
    (h : ∀ e ∈ t.entries, (f e.2).Fits entryLevels) (hv : tableValue? f t = some v) :
    v.Fits (entryLevels + 1) := by
  unfold tableValue? at hv
  split_ifs at hv
  obtain rfl := Option.some.inj hv
  refine Json.fitsMembers_iff.mpr fun m hm => ?_
  obtain ⟨e, he, rfl⟩ := List.mem_map.mp hm
  exact h e he

theorem mem_present {fs : List (String × Option Json)} {m : String × Json} (h : m ∈ present fs) :
    (m.1, some m.2) ∈ fs := by
  rw [present_eq] at h
  obtain ⟨v, hmem, rfl⟩ := mem_of_mem_filterMap (f := id) h
  exact hmem

/-- A configuration is written as a value that a text can hold. -/
theorem fits_toJson {b : Bootstrap} (h : b.Normal) : b.toJson.Fits depthLimit := by
  rw [toJson_eq]
  refine Json.fitsMembers_iff.mpr fun m hm => ?_
  have hfield := mem_present hm
  generalize m.1 = name at hfield
  generalize m.2 = v at hfield ⊢
  simp only [fields, List.mem_cons, Prod.mk.injEq, List.not_mem_nil, or_false] at hfield
  obtain ⟨-, hv⟩ | ⟨-, hv⟩ | ⟨-, hv⟩ | ⟨-, hv⟩ | ⟨-, hv⟩ | ⟨-, hv⟩ | ⟨-, hv⟩ := hfield
  · obtain ⟨x, hx, rfl⟩ := Option.map_eq_some_iff.mp hv.symm
    exact h.interval x hx
  · exact fits_tableValue? (f := Json.string) (fun _ _ => trivial) hv.symm
  · exact fits_tableValue? (fun e he => (h.handlers e he).2) hv.symm
  · exact fits_tableValue? (fun e he => (h.hooks e he).2) hv.symm
  · exact fits_tableValue? (fun e he => (h.lists e he).1) hv.symm
  · obtain ⟨x, -, rfl⟩ := Option.map_eq_some_iff.mp hv.symm
    trivial
  · obtain ⟨x, -, rfl⟩ := Option.map_eq_some_iff.mp hv.symm
    trivial

/-- A configuration that was read from a text and is written into a page is
read from the page again, with no report. So a backend that is set up from
the page is the one that is set up from the text. -/
theorem parse?_inlineJson {text : String} {b : Bootstrap} {log : List LogRecord}
    (h : parse? text = some (b, log)) :
    parse? b.inlineJson = some (b, []) ∧
      (parse? b.inlineJson).map (fun r => Session.ofBootstrap r.1) =
        some (Session.ofBootstrap b) := by
  obtain ⟨v, hv, hread⟩ := Option.map_eq_some_iff.mp h
  obtain ⟨hfits, hsorted⟩ := Json.fits_of_parse? hv
  have hnormal : b.Normal := by
    have hresult := normal_of_ofValue hfits hsorted
    rwa [hread] at hresult
  have hjson : Json.parse? b.inlineJson = some b.toJson.sorted := by
    have hguard := Json.parse?_guardClosingTags (Json.parse?_text (fits_toJson hnormal))
    rwa [Json.text, String.toList_ofList] at hguard
  have hinline : parse? b.inlineJson = some (b, []) := by
    rw [parse?, hjson, Option.map_some, ofValue_sorted_toJson hnormal]
  exact ⟨hinline, by rw [hinline, Option.map_some]⟩

/-- A text with all fields of a configuration. The start of a closing tag is
in a key, in a value and in a template, and an entry of the lists is no list. -/
def everyField : String :=
  "\x7b\"pollIntervalMs\":50,\"initialData\":\x7b\"</a\":\"</\"\x7d," ++
  "\"handlerEffects\":\x7b" ++
    "\"both\":[\x7b\"type\":\"set\",\"key\":\"k\",\"val\":[null]\x7d," ++
      "\x7b\"type\":\"toggle\",\"key\":\"t\"\x7d]," ++
    "\"inc\":\x7b\"type\":\"inc\",\"key\":\"n\",\"by\":2\x7d\x7d," ++
  "\"modelUpdateEffects\":\x7b" ++
    "\"k\":\x7b\"type\":\"setTemplate\",\"key\":\"e\",\"template\":\"</val>\"\x7d\x7d," ++
  "\"lists\":\x7b\"l\":[\"two\",[]],\"m\":2\x7d," ++
  "\"onTriggerLog\":false,\"onModelUpdateLog\":null\x7d"

/-- The configuration in the text. -/
def ofEveryField : Bootstrap where
  pollIntervalMs := some (.ofInt 50)
  initialData := Table.ofList [("</a", "</")]
  handlerEffects := Table.ofList
    [("both", .many [.set "k" (.array [.null]), .toggle "t"]),
     ("inc", .one (.inc "n" (some (.ofInt 2))))]
  modelUpdateEffects := Table.ofList [("k", .one (.setTemplate "e" "</val>"))]
  lists := Table.ofList [("l", [.string "two", .array []])]
  onTriggerLog := some false
  onModelUpdateLog := none

theorem words?_everyField : Json.words? everyField.toList =
    some [.openObject,
      .string (some "pollIntervalMs"), .colon, .number (some (.integer 50)), .comma,
      .string (some "initialData"), .colon, .openObject, .string (some "</a"), .colon,
        .string (some "</"), .closeObject, .comma,
      .string (some "handlerEffects"), .colon, .openObject,
        .string (some "both"), .colon, .openArray,
          .openObject, .string (some "type"), .colon, .string (some "set"), .comma,
            .string (some "key"), .colon, .string (some "k"), .comma,
            .string (some "val"), .colon, .openArray, .null, .closeArray, .closeObject, .comma,
          .openObject, .string (some "type"), .colon, .string (some "toggle"), .comma,
            .string (some "key"), .colon, .string (some "t"), .closeObject, .closeArray, .comma,
        .string (some "inc"), .colon,
          .openObject, .string (some "type"), .colon, .string (some "inc"), .comma,
            .string (some "key"), .colon, .string (some "n"), .comma,
            .string (some "by"), .colon, .number (some (.integer 2)), .closeObject,
        .closeObject, .comma,
      .string (some "modelUpdateEffects"), .colon, .openObject, .string (some "k"), .colon,
          .openObject, .string (some "type"), .colon, .string (some "setTemplate"), .comma,
            .string (some "key"), .colon, .string (some "e"), .comma,
            .string (some "template"), .colon, .string (some "</val>"), .closeObject,
        .closeObject, .comma,
      .string (some "lists"), .colon, .openObject, .string (some "l"), .colon, .openArray,
          .string (some "two"), .comma, .openArray, .closeArray, .closeArray, .comma,
        .string (some "m"), .colon, .number (some (.integer 2)), .closeObject, .comma,
      .string (some "onTriggerLog"), .colon, .bool false, .comma,
      .string (some "onModelUpdateLog"), .colon, .null, .closeObject] := by
  -- The characters of several short texts are found faster than those of a long one.
  unfold everyField
  repeat rw [String.toList_append]
  decide +kernel

theorem parse?_inlineJson_everyField :
    parse? everyField = some (ofEveryField, [.listDropped "m"]) ∧
      parse? ofEveryField.inlineJson = some (ofEveryField, []) ∧
      (parse? ofEveryField.inlineJson).map (fun r => Session.ofBootstrap r.1) =
        some (Session.ofBootstrap ofEveryField) := by
  have hread : parse? everyField = some (ofEveryField, [.listDropped "m"]) := by
    rw [parse?, Json.parse?, Json.Written.parse?, words?_everyField]
    rfl
  exact ⟨hread, parse?_inlineJson hread⟩

end Bootstrap

end PagePreview
