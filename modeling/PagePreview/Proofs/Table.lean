/-
PagePreview.Proofs.Table — tables made of lists.

* `entries_ofList` — a sorted list is the table it makes.
* `insert_of_mem` — an entry that is there already changes nothing.
* `mem_of_mem_ofList` — a table has no entries but those of its list.
* `lookup_filterMap`, `sublist_filterMap`, `mem_of_mem_filterMap` — what is
  left of a list of names.
* `get?_ofList_last`, `get?_ofList` — what a list says of a name, and a list
  of different names.
* `ext_get?` — a table is known by what it has under each name.
-/
import Mathlib
import PagePreview.Table

namespace PagePreview

variable {α : Type}

theorem insertEntry_of_lt {key : String} (value : α) :
    ∀ {entries : List (String × α)}, (∀ e ∈ entries, e.1 < key) →
      insertEntry key value entries = entries ++ [(key, value)]
  | [], _ => rfl
  | (k, v) :: rest, h => by
      have hk : k < key := h (k, v) List.mem_cons_self
      have hne : key ≠ k := fun heq => String.lt_irrefl k (heq ▸ hk)
      have hrest := insertEntry_of_lt value (fun e he => h e (List.mem_cons_of_mem _ he))
      rw [insertEntry, if_neg (String.lt_asymm hk), if_neg hne, hrest]
      rfl

theorem mem_insertEntry {key : String} {value : α} {e : String × α} :
    ∀ {entries : List (String × α)}, e ∈ insertEntry key value entries →
      e = (key, value) ∨ e ∈ entries
  | [], h => .inl (List.mem_singleton.mp h)
  | (k, v) :: rest, h => by
      unfold insertEntry at h
      split_ifs at h
      · exact List.mem_cons.mp h
      · exact (List.mem_cons.mp h).imp id (List.mem_cons_of_mem _)
      · rcases List.mem_cons.mp h with rfl | h
        · exact .inr List.mem_cons_self
        · exact (mem_insertEntry h).imp id (List.mem_cons_of_mem _)

/-- An entry that a sorted list has already changes nothing. -/
theorem insertEntry_of_mem {key : String} {value : α} :
    ∀ {entries : List (String × α)}, entries.Pairwise (·.1 < ·.1) → (key, value) ∈ entries →
      insertEntry key value entries = entries
  | (k, v) :: rest, hsorted, h => by
      rw [List.pairwise_cons] at hsorted
      rcases List.mem_cons.mp h with heq | h
      · obtain ⟨rfl, rfl⟩ := Prod.mk.inj heq
        rw [insertEntry, if_neg (String.lt_irrefl key), if_pos rfl]
      · have hlt : k < key := hsorted.1 _ h
        have hne : key ≠ k := fun heq => String.lt_irrefl k (heq ▸ hlt)
        rw [insertEntry, if_neg (String.lt_asymm hlt), if_neg hne, insertEntry_of_mem hsorted.2 h]

theorem lookup_eq_none_of_notMem {entries : List (String × α)} {k : String}
    (h : k ∉ entries.map (·.1)) : entries.lookup k = none :=
  List.lookup_eq_none_iff.mpr fun e he => by
    have hne : k ≠ e.1 := fun heq => h (List.mem_map.mpr ⟨e, he, heq.symm⟩)
    simpa using hne

/-- A sorted list has nothing under a name that comes before all of its own. -/
theorem lookup_eq_none_of_lt {entries : List (String × α)} {k : String}
    (h : ∀ e ∈ entries, k < e.1) : entries.lookup k = none := by
  refine lookup_eq_none_of_notMem fun hmem => ?_
  obtain ⟨e, he, rfl⟩ := List.mem_map.mp hmem
  exact String.lt_irrefl e.1 (h e he)

/-- Sorted lists that say the same of every name are the same list. -/
theorem eq_of_lookup_eq : ∀ {l l' : List (String × α)}, l.Pairwise (·.1 < ·.1) →
    l'.Pairwise (·.1 < ·.1) → (∀ k, l.lookup k = l'.lookup k) → l = l'
  | [], [], _, _, _ => rfl
  | [], (k, v) :: _, _, _, h => by simpa using h k
  | (k, v) :: _, [], _, _, h => by simpa using h k
  | (k, v) :: rest, (k', v') :: rest', hl, hl', h => by
      rw [List.pairwise_cons] at hl hl'
      -- Neither list can have a first name that comes before that of the other.
      have hnot : ¬k < k' := by
        intro hlt
        have hnone : ((k', v') :: rest').lookup k = none :=
          lookup_eq_none_of_lt (List.forall_mem_cons.mpr
            ⟨hlt, fun e he => String.lt_trans hlt (hl'.1 e he)⟩)
        simpa [hnone] using h k
      have hnot' : ¬k' < k := by
        intro hlt
        have hnone : ((k, v) :: rest).lookup k' = none :=
          lookup_eq_none_of_lt (List.forall_mem_cons.mpr
            ⟨hlt, fun e he => String.lt_trans hlt (hl.1 e he)⟩)
        simpa [hnone] using h k'
      obtain rfl : k = k' := by
        by_contra hne
        exact hnot' (lt_of_not_lt_of_ne hnot hne)
      obtain rfl : v = v' := by simpa using h k
      have hrest : ∀ j, rest.lookup j = rest'.lookup j := by
        intro j
        by_cases hj : j = k
        · subst hj
          rw [lookup_eq_none_of_lt hl.1, lookup_eq_none_of_lt hl'.1]
        · have hbeq : (j == k) = false := by simpa using hj
          simpa [List.lookup_cons, hbeq] using h j
      rw [eq_of_lookup_eq hl.2 hl'.2 hrest]

theorem lookup_map_snd {β : Type} (f : α → β) (k : String) : ∀ entries : List (String × α),
    (entries.map fun e => (e.1, f e.2)).lookup k = (entries.lookup k).map f
  | [] => rfl
  | (k', v) :: rest => by
      rw [List.map_cons, List.lookup_cons, List.lookup_cons, lookup_map_snd f k rest]
      cases k == k' <;> rfl

theorem lookup_filter (p : String → Bool) (k : String) : ∀ entries : List (String × α),
    (entries.filter fun e => p e.1).lookup k = if p k then entries.lookup k else none
  | [] => by simp
  | (k', v) :: rest => by
      have hrest := lookup_filter p k rest
      by_cases hk : k = k'
      · subst hk
        cases hp : p k <;> simp [hp, hrest]
      · have hbeq : (k == k') = false := by simpa using hk
        cases hp : p k' <;> simp [hp, hrest, List.lookup_cons, hbeq]

/-- What is left of a list of different names says of a name what the list
says of it, if that is left. -/
theorem lookup_filterMap {β : Type} (f : α → Option β) (k : String) :
    ∀ {entries : List (String × α)}, (entries.map (·.1)).Nodup →
      (entries.filterMap fun e => (f e.2).map (e.1, ·)).lookup k = (entries.lookup k).bind f
  | [], _ => rfl
  | (k', v) :: rest, h => by
      rw [List.map_cons, List.nodup_cons] at h
      have hrest := lookup_filterMap f k h.2
      by_cases hk : k = k'
      · subst hk
        rw [lookup_eq_none_of_notMem h.1, Option.bind_none] at hrest
        cases hv : f v <;> simp [hv, hrest]
      · have hbeq : (k == k') = false := by simpa using hk
        cases hv : f v <;> simp [hv, hrest, List.lookup_cons, hbeq]

/-- What is left of a list keeps the names in their order. -/
theorem sublist_filterMap {β : Type} (f : α → Option β) : ∀ entries : List (String × α),
    ((entries.filterMap fun e => (f e.2).map (e.1, ·)).map (·.1)).Sublist (entries.map (·.1))
  | [] => .slnil
  | (k, v) :: rest => by
      cases hv : f v with
      | none => simpa [hv] using (sublist_filterMap f rest).cons k
      | some x => simpa [hv] using (sublist_filterMap f rest).cons_cons k

theorem mem_of_mem_filterMap {β : Type} {f : α → Option β} {entries : List (String × α)}
    {e : String × β} (h : e ∈ entries.filterMap fun e => (f e.2).map (e.1, ·)) :
    ∃ v, (e.1, v) ∈ entries ∧ f v = some e.2 := by
  obtain ⟨⟨k, v⟩, hmem, hvalue⟩ := List.mem_filterMap.mp h
  obtain ⟨x, hx, rfl⟩ := Option.map_eq_some_iff.mp hvalue
  exact ⟨v, hmem, hx⟩

theorem nodup_of_sorted {entries : List (String × α)} (h : entries.Pairwise (·.1 < ·.1)) :
    (entries.map (·.1)).Nodup := by
  refine List.pairwise_map.mpr (h.imp fun {a b} hlt heq => ?_)
  rw [heq] at hlt
  exact String.lt_irrefl b.1 hlt

/-- A list of different names has the entries that it says of them. -/
theorem mem_iff_lookup {entries : List (String × α)} (h : (entries.map (·.1)).Nodup) {k : String}
    {v : α} : (k, v) ∈ entries ↔ entries.lookup k = some v := by
  induction entries with
  | nil => simp
  | cons e rest ih =>
    obtain ⟨k', v'⟩ := e
    rw [List.map_cons, List.nodup_cons] at h
    by_cases hk : k = k'
    · subst hk
      have hnot : (k, v) ∉ rest := fun hmem => h.1 (List.mem_map.mpr ⟨_, hmem, rfl⟩)
      simp [hnot, eq_comm]
    · have hbeq : (k == k') = false := by simpa using hk
      simp [List.lookup_cons, hbeq, hk, ih h.2]

/-- A list of different names has one entry of a name. -/
theorem filter_eq_of_lookup {entries : List (String × α)} (h : (entries.map (·.1)).Nodup)
    {k : String} {v : α} (hk : entries.lookup k = some v) :
    entries.filter (·.1 = k) = [(k, v)] := by
  obtain ⟨before, after, rfl, hbefore⟩ := List.lookup_eq_some_iff.mp hk
  rw [List.map_append, List.map_cons, List.nodup_append, List.nodup_cons] at h
  have hfirst : before.filter (·.1 = k) = [] :=
    List.filter_eq_nil_iff.mpr fun e he => by
      have hne : k ≠ e.1 := by simpa using hbefore e he
      simpa using hne.symm
  have hlast : after.filter (·.1 = k) = [] :=
    List.filter_eq_nil_iff.mpr fun e he => by
      have hne : e.1 ≠ k := fun heq => h.2.1.1 (List.mem_map.mpr ⟨e, he, heq⟩)
      simpa using hne
  simp [hfirst, hlast]

namespace Table

theorem entries_ofList_eq_foldl (entries : List (String × α)) :
    (ofList entries).entries = entries.foldl (fun es e => insertEntry e.1 e.2 es) [] :=
  (List.foldl_hom Table.entries fun _ _ => rfl).symm

theorem eq_of_entries_eq {t t' : Table α} (h : t.entries = t'.entries) : t = t' := by
  cases t
  cases t'
  congr

theorem insert_of_mem {t : Table α} {key : String} {value : α} (h : (key, value) ∈ t.entries) :
    t.insert key value = t :=
  eq_of_entries_eq (insertEntry_of_mem t.sorted h)

theorem entries_foldl_insert : ∀ {entries : List (String × α)} {t : Table α},
    (t.entries ++ entries).Pairwise (·.1 < ·.1) →
      (entries.foldl (fun t e => t.insert e.1 e.2) t).entries = t.entries ++ entries
  | [], t, _ => (List.append_nil t.entries).symm
  | (k, v) :: rest, t, h => by
      have hlast : (t.insert k v).entries = t.entries ++ [(k, v)] :=
        insertEntry_of_lt v fun e he =>
          (List.pairwise_append.mp h).2.2 e he (k, v) List.mem_cons_self
      rw [List.foldl_cons, entries_foldl_insert, hlast, List.append_assoc]
      · rfl
      · rwa [hlast, List.append_assoc]

/-- A sorted list is the table it makes. -/
theorem entries_ofList {entries : List (String × α)} (h : entries.Pairwise (·.1 < ·.1)) :
    (ofList entries).entries = entries :=
  entries_foldl_insert h

theorem ofList_entries (t : Table α) : ofList t.entries = t :=
  eq_of_entries_eq (entries_ofList t.sorted)

theorem mem_foldl_insert {e : String × α} : ∀ (entries : List (String × α)) {t : Table α},
    e ∈ (entries.foldl (fun t e => t.insert e.1 e.2) t).entries → e ∈ entries ∨ e ∈ t.entries
  | [], _, h => .inr h
  | (k, v) :: rest, t, h => by
      rcases mem_foldl_insert rest h with h | h
      · exact .inl (List.mem_cons_of_mem _ h)
      · refine (mem_insertEntry h).imp (fun heq => ?_) id
        rw [heq]
        exact List.mem_cons_self

/-- A table has no entries but those of its list. -/
theorem mem_of_mem_ofList {entries : List (String × α)} {e : String × α}
    (h : e ∈ (ofList entries).entries) : e ∈ entries :=
  (mem_foldl_insert entries h).resolve_right List.not_mem_nil

theorem get?_foldl_insert (k : String) : ∀ {entries : List (String × α)} {t : Table α},
    (entries.foldl (fun t e => t.insert e.1 e.2) t).get? k =
      (entries.reverse.lookup k).or (t.get? k)
  | [], _ => rfl
  | (k', v) :: rest, t => by
      rw [List.foldl_cons, get?_foldl_insert k, get?_insert, List.reverse_cons,
        List.lookup_append, Option.or_assoc]
      by_cases hk : k = k'
      · simp [hk]
      · have hbeq : (k == k') = false := by simpa using hk
        simp [hk, hbeq, List.lookup_cons]

/-- What a list says of a name; of several entries the last counts. -/
theorem get?_ofList_last (entries : List (String × α)) (k : String) :
    (ofList entries).get? k = entries.reverse.lookup k := by
  rw [ofList, get?_foldl_insert, get?_empty, Option.or_none]

/-- What a list of different names says of a name. -/
theorem get?_ofList {entries : List (String × α)} (h : (entries.map (·.1)).Nodup) (k : String) :
    (ofList entries).get? k = entries.lookup k := by
  have hreverse : (entries.reverse.map (·.1)).Nodup := by
    rwa [List.map_reverse, List.nodup_reverse]
  refine (get?_ofList_last entries k).trans (Option.ext fun v => ?_)
  rw [← mem_iff_lookup hreverse, ← mem_iff_lookup h, List.mem_reverse]

/-- A table is known by what it has under each name. -/
theorem ext_get? {t t' : Table α} (h : ∀ k, t.get? k = t'.get? k) : t = t' :=
  eq_of_entries_eq (eq_of_lookup_eq t.sorted t'.sorted h)

end Table

end PagePreview
