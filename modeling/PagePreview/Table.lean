/-
PagePreview.Table — finite maps from names to values, sorted by name.

The entries of a table are strictly increasing in their keys, compared by
code points (which is also the order of their UTF-8 bytes). A table has
therefore one representation, and it is written in one order whatever the
order in which it was filled.

* `get?`, `insert`, `contains`, `size`, `ofList` — the operations.
* `get?_insert` — what an insertion does to every lookup.
-/

namespace PagePreview

/-- Puts an entry at its place among sorted entries; an entry with the
same key is replaced. -/
def insertEntry {α : Type} (key : String) (value : α) :
    List (String × α) → List (String × α)
  | [] => [(key, value)]
  | (k, v) :: rest =>
    if key < k then (key, value) :: (k, v) :: rest
    else if key = k then (key, value) :: rest
    else (k, v) :: insertEntry key value rest

theorem fst_mem_insertEntry {α : Type} {key : String} {value : α} {e : String × α}
    {entries : List (String × α)} (h : e ∈ insertEntry key value entries) :
    e.1 = key ∨ e ∈ entries := by
  fun_induction insertEntry key value entries <;> grind

theorem lt_of_not_lt_of_ne {a b : String} (h : ¬a < b) (hne : a ≠ b) : b < a := by
  have hle : b ≤ a := String.not_lt.mp h
  exact Std.lt_of_le_of_ne hle (Ne.symm hne)

theorem pairwise_insertEntry {α : Type} (key : String) (value : α)
    {entries : List (String × α)} (h : entries.Pairwise (·.1 < ·.1)) :
    (insertEntry key value entries).Pairwise (·.1 < ·.1) := by
  induction entries with
  | nil => simp [insertEntry]
  | cons e rest ih =>
    obtain ⟨k, v⟩ := e
    rw [List.pairwise_cons] at h
    simp only [insertEntry]
    split
    · rename_i hlt
      refine List.pairwise_cons.mpr ⟨fun e he => ?_, List.pairwise_cons.mpr h⟩
      rcases List.mem_cons.mp he with rfl | he
      · exact hlt
      · exact String.lt_trans hlt (h.1 e he)
    · split
      · rename_i heq
        subst heq
        exact List.pairwise_cons.mpr h
      · rename_i hlt hne
        refine List.pairwise_cons.mpr ⟨fun e he => ?_, ih h.2⟩
        rcases fst_mem_insertEntry he with heq | he
        · exact heq ▸ lt_of_not_lt_of_ne hlt hne
        · exact h.1 e he

structure Table (α : Type) where
  /-- The entries in the order of their keys. -/
  entries : List (String × α)
  sorted : entries.Pairwise (·.1 < ·.1)

namespace Table

variable {α : Type}

def empty : Table α := ⟨[], .nil⟩

instance : Inhabited (Table α) := ⟨empty⟩

instance [DecidableEq α] : DecidableEq (Table α) := fun a b =>
  decidable_of_iff (a.entries = b.entries) (by cases a; cases b; simp)

def get? (t : Table α) (key : String) : Option α :=
  t.entries.lookup key

def insert (t : Table α) (key : String) (value : α) : Table α :=
  ⟨insertEntry key value t.entries, pairwise_insertEntry key value t.sorted⟩

def contains (t : Table α) (key : String) : Bool :=
  (t.get? key).isSome

def size (t : Table α) : Nat :=
  t.entries.length

/-- The table of a list of entries; of several with one key the last counts. -/
def ofList (entries : List (String × α)) : Table α :=
  entries.foldl (fun t e => t.insert e.1 e.2) empty

@[simp] theorem get?_empty (key : String) : (empty : Table α).get? key = none := rfl

theorem lookup_insertEntry (key : String) (value : α) (k : String)
    (entries : List (String × α)) :
    (insertEntry key value entries).lookup k =
      if k = key then some value else entries.lookup k := by
  induction entries with
  | nil => simp [insertEntry, List.lookup_cons]; grind
  | cons e rest ih =>
    obtain ⟨k', v'⟩ := e
    simp only [insertEntry]
    split
    · simp only [List.lookup_cons]; grind
    · split <;> simp only [List.lookup_cons] <;> grind

/-- An insertion changes the value under its own key and no other. -/
theorem get?_insert (t : Table α) (key : String) (value : α) (k : String) :
    (t.insert key value).get? k = if k = key then some value else t.get? k :=
  lookup_insertEntry key value k t.entries

end Table

end PagePreview
