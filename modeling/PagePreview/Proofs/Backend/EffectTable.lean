/-
PagePreview.Proofs.Backend.EffectTable — which entries of a table of
effects are kept.

The two tables of a configuration are read entry by entry: what describes
effects is kept, anything else is left out and reported. So what there is
under a name depends on the entry of that name and on no other.

* `Bootstrap.entryAt?` — the entry of a name.
* `Bootstrap.get?_readEntries`, `Bootstrap.exists_dropped` — what is kept,
  and what is reported.
* `Bootstrap.ofValue_effects` — the tables of a configuration, and the
  report.
-/
import PagePreview.Proofs.Backend.Description

namespace PagePreview

namespace Bootstrap

/-! ## Entries of a field -/

/-- The entry of a name in a field that is an object. -/
def entryAt? (v : Json) (field name : String) : Option Json :=
  (v.member? field).bind (·.member? name)

theorem lookup_entriesOf (v : Json) (field name : String) :
    (entriesOf v field).lookup name = entryAt? v field name := by
  unfold entriesOf entryAt? Json.member?
  cases v.members?.bind (·.lookup field) with
  | none => rfl
  | some w => cases w <;> rfl

/-- The entries of a field are sorted, and so are their values. -/
theorem sorted_entriesOf {v : Json} (hsorted : v.sorted = v) (field : String) :
    (entriesOf v field).Pairwise (·.1 < ·.1) ∧ ∀ e ∈ entriesOf v field, e.2.sorted = e.2 := by
  unfold entriesOf
  cases hread : (v.member? field).bind (·.members?) with
  | none => exact ⟨.nil, nofun⟩
  | some members =>
    obtain ⟨w, hmember, hmembers⟩ := Option.bind_eq_some_iff.mp hread
    cases w with
    | object members' =>
      obtain rfl := Option.some.inj hmembers
      exact Json.sorted_of_mem_object (Json.sorted_of_member? hsorted hmember)
    | _ => exact nomatch hmembers

section Entries

variable {α : Type} {read? : Json → Option α} {dropped : String → LogRecord}
  {entries : List (String × Json)} (hkeys : entries.Pairwise (·.1 < ·.1))

include hkeys

/-- What a table has under a name is what is read of the entry of that name,
whatever the other entries are. -/
theorem get?_readEntries (name : String) :
    (readEntries read? dropped entries).1.get? name = (entries.lookup name).bind read? := by
  have hnames := nodup_of_sorted hkeys
  rw [readEntries, Table.get?_ofList ((sublist_filterMap read? entries).nodup hnames),
    lookup_filterMap read? name hnames]

/-- The report has the names of the entries that cannot be read, each once
and in order. -/
theorem exists_dropped (read? : Json → Option α) (dropped : String → LogRecord) :
    ∃ names : List String, names.Pairwise (· < ·) ∧
      (∀ name, name ∈ names ↔ ∃ v, entries.lookup name = some v ∧ read? v = none) ∧
      (readEntries read? dropped entries).2 = names.map dropped := by
  refine ⟨(entries.filter fun e => (read? e.2).isNone).map (·.1), ?_, fun name => ?_, ?_⟩
  · exact List.pairwise_map.mpr (hkeys.sublist List.filter_sublist)
  · simp only [List.mem_map, List.mem_filter, Option.isNone_iff_eq_none]
    constructor
    · rintro ⟨⟨name, v⟩, ⟨hmem, hv⟩, rfl⟩
      exact ⟨v, (mem_iff_lookup (nodup_of_sorted hkeys)).mp hmem, hv⟩
    · rintro ⟨v, hlookup, hv⟩
      exact ⟨(name, v), ⟨(mem_iff_lookup (nodup_of_sorted hkeys)).mpr hlookup, hv⟩, rfl⟩
  · rw [readEntries, List.map_map]
    rfl

end Entries

/-! ## Tables of a configuration -/

/-- The fields of a configuration that are tables of effects. -/
inductive EffectField
  | handlers
  | hooks

namespace EffectField

def name : EffectField → String
  | handlers => "handlerEffects"
  | hooks => "modelUpdateEffects"

def table : EffectField → Bootstrap → Table EffectSet
  | handlers, b => b.handlerEffects
  | hooks, b => b.modelUpdateEffects

/-- The records about a field in a report. -/
def report (field : EffectField) (log : List LogRecord) : List LogRecord :=
  log.filter fun
    | .effectDropped name _ => name = field.name
    | _ => false

theorem report_append (field : EffectField) (log log' : List LogRecord) :
    field.report (log ++ log') = field.report log ++ field.report log' :=
  List.filter_append log log'

end EffectField

theorem table_ofValue (field : EffectField) (v : Json) :
    field.table (ofValue v).1 = (effectTable v field.name).1 := by
  cases v <;> cases field <;> rfl

theorem report_effectTable (field : EffectField) (v : Json) (name : String) :
    field.report (effectTable v name).2 =
      if name = field.name then (effectTable v name).2 else [] := by
  rw [effectTable, readEntries, EffectField.report, List.filter_map]
  split
  next h => simp [Function.comp_def, h]
  next h => simp [Function.comp_def, h]

theorem report_lists (field : EffectField) (entries : List (String × Json)) :
    field.report (readEntries items? .listDropped entries).2 = [] := by
  rw [readEntries, EffectField.report, List.filter_map]
  simp [Function.comp_def]

/-- The report about a field is what was left out of its table. -/
theorem report_ofValue (field : EffectField) (v : Json) :
    field.report (ofValue v).2 = (effectTable v field.name).2 := by
  cases v with
  | object members =>
    have hlog : (ofValue (.object members)).2 =
        (effectTable (.object members) "handlerEffects").2 ++
          (effectTable (.object members) "modelUpdateEffects").2 ++
          (readEntries items? .listDropped (entriesOf (.object members) "lists")).2 := rfl
    rw [hlog, EffectField.report_append, EffectField.report_append, report_effectTable,
      report_effectTable, report_lists]
    cases field <;> simp [EffectField.name]
  | _ => cases field <;> rfl

/-- Of the entries of a field, those are kept that describe effects, as what
they describe, and none of these effects is unrecognized. The others are
reported, each once and in the order of their names. What is kept or
reported under a name depends on the entry of that name alone. An entry that
has the structure of effects is always read. All this holds of any value, as
objects are maps: their members are sorted, and each name is there once. -/
theorem ofValue_effects {v : Json} (hsorted : v.sorted = v) (field : EffectField) :
    (∀ name es, (field.table (ofValue v).1).get? name = some es ↔
      ∃ entry, entryAt? v field.name name = some entry ∧ es.DescribedBy entry) ∧
    (∀ name es, (field.table (ofValue v).1).get? name = some es →
      .unrecognized ∉ es.effects) ∧
    (∃ names : List String, names.Pairwise (· < ·) ∧
      (∀ name, name ∈ names ↔ ∃ entry, entryAt? v field.name name = some entry ∧
        ¬∃ es : EffectSet, es.DescribedBy entry) ∧
      field.report (ofValue v).2 = names.map (.effectDropped field.name) ∧
      (field.report (ofValue v).2).map (fun r => (r.level, r.message)) = names.map fun name =>
        ("WARN", "dropping " ++ field.name ++ " entry '" ++ name ++ "': malformed effect")) ∧
    (∀ name entry, entryAt? v field.name name = some entry →
      (isEffectEntry entry ↔ ∃ es : EffectSet, es.DescribedBy entry) ∧
      (isEffectEntry entry → ∃ es, EffectSet.ofWritten? (.ofValue entry) = some es)) := by
  obtain ⟨hkeys, hvalues⟩ := sorted_entriesOf hsorted field.name
  have hentry {name : String} {entry : Json}
      (h : entryAt? v field.name name = some entry) : entry.sorted = entry := by
    rw [← lookup_entriesOf] at h
    exact hvalues _ ((mem_iff_lookup (nodup_of_sorted hkeys)).mpr h)
  have hkept (name : String) (es : EffectSet) :
      (field.table (ofValue v).1).get? name = some es ↔
        ∃ entry, entryAt? v field.name name = some entry ∧ es.DescribedBy entry := by
    rw [table_ofValue, effectTable, get?_readEntries hkeys, lookup_entriesOf,
      Option.bind_eq_some_iff]
    exact exists_congr fun entry => and_congr_right fun h => entry?_eq_some_iff (hentry h)
  refine ⟨hkept, fun name es h => ?_, ?_, fun name entry h => ⟨isEffectEntry_iff, fun hcheck => ?_⟩⟩
  · obtain ⟨entry, -, hes⟩ := (hkept name es).mp h
    exact hes.unrecognized_notMem
  · obtain ⟨names, hnames, hmem, hlog⟩ := exists_dropped hkeys entry?
      (.effectDropped field.name)
    rw [← effectTable, ← report_ofValue] at hlog
    refine ⟨names, hnames, fun name => ?_, hlog, ?_⟩
    · rw [hmem, lookup_entriesOf]
      exact exists_congr fun entry => and_congr_right fun h => entry?_eq_none_iff (hentry h)
    · rw [hlog, List.map_map]
      rfl
  · obtain ⟨es, hes⟩ := isEffectEntry_iff.mp hcheck
    exact ⟨es, EffectSet.ofWritten?_of_describedBy (hentry h) hes⟩

/-- A handler that can be read, and one whose second effect has no key. -/
def partlyValid : Json :=
  .object [("handlerEffects", .object
    [("both", .array
      [.object [("key", .string "f"), ("type", .string "toggle")],
        .object [("key", .string "a"), ("type", .string "set"), ("val", .null)]]),
     ("partly", .array
      [.object [("key", .string "f"), ("type", .string "toggle")],
        .object [("by", .number (.integer 2)), ("type", .string "inc")]])])]

theorem ofValue_effects_partlyValid :
    partlyValid.sorted = partlyValid ∧
      (ofValue partlyValid).1.handlerEffects.get? "both" =
        some (.many [.toggle "f", .set "a" .null]) ∧
      (ofValue partlyValid).1.handlerEffects.get? "partly" = none ∧
      LogRecord.effectDropped "handlerEffects" "partly" ∈ (ofValue partlyValid).2 := by
  have hsorted : partlyValid.sorted = partlyValid := by cbv
  obtain ⟨hkept, -, ⟨names, -, hnames, hlog, -⟩, hcheck⟩ := ofValue_effects hsorted .handlers
  have hmalformed : ¬∃ es : EffectSet, es.DescribedBy _ :=
    (not_congr (hcheck "partly" _ rfl).1).mp (by decide)
  refine ⟨hsorted, (hkept "both" _).mpr ⟨_, rfl, .many ?_⟩, ?_, ?_⟩
  · exact .cons (.toggle rfl rfl) (.cons (.set rfl rfl rfl) .nil)
  · refine Option.eq_none_iff_forall_ne_some.mpr fun es h => ?_
    obtain ⟨entry, hentry, hes⟩ := (hkept "partly" es).mp h
    obtain rfl := Option.some.inj hentry
    exact hmalformed ⟨es, hes⟩
  · have hmem := List.mem_map_of_mem (f := LogRecord.effectDropped "handlerEffects")
      ((hnames "partly").mpr ⟨_, rfl, hmalformed⟩)
    exact List.mem_of_mem_filter (hlog.symm ▸ hmem)

end Bootstrap

end PagePreview
