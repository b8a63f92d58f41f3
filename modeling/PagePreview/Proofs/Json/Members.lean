/-
PagePreview.Proofs.Json.Members — the members of an object, as they are
written and as they are read.

A text may give an object several members of one name. As a value the object
has the last of them, and as a record it must not have two of a name that the
record knows. An object that is written from different names is the same to
both.

* `exists_object_of_member?`, `sorted_of_member?` — members of values.
* `Written.value?_forms` — what a value is read from.
* `Written.last?`, `Written.rel_member?` — the member that a value has.
* `Written.exists_record` — the fields of a record.
-/
import PagePreview.Proofs.Json.RoundTrip
import PagePreview.Proofs.Table

namespace PagePreview

theorem mapM_eq_some_iff {α β : Type} {f : α → Option β} : ∀ {xs : List α} {ys : List β},
    xs.mapM f = some ys ↔ List.Forall₂ (fun x y => f x = some y) xs ys
  | [], ys => by simp [eq_comm]
  | x :: xs, ys => by
      simp only [List.mapM_cons, Option.bind_eq_bind, Option.bind_eq_some_iff, mapM_eq_some_iff,
        List.forall₂_cons_left_iff]
      constructor
      · rintro ⟨y, hy, ys', hys, heq⟩
        exact ⟨y, ys', hy, hys, (Option.some.inj heq).symm⟩
      · rintro ⟨y, ys', hy, hys, rfl⟩
        exact ⟨y, hy, ys', hys, rfl⟩

namespace Json

/-! ## Members of values -/

theorem exists_object_of_member? {v w : Json} {name : String} (h : v.member? name = some w) :
    ∃ members, v = .object members ∧ members.lookup name = some w := by
  cases v with
  | object members => exact ⟨members, rfl, h⟩
  | _ => exact nomatch h

theorem sorted_of_member? {v w : Json} (hsorted : v.sorted = v) {name : String}
    (h : v.member? name = some w) : w.sorted = w := by
  obtain ⟨members, rfl, hlookup⟩ := exists_object_of_member? h
  obtain ⟨hkeys, hvalues⟩ := sorted_of_mem_object hsorted
  exact hvalues _ ((mem_iff_lookup (nodup_of_sorted hkeys)).mpr hlookup)

namespace Written

/-! ## Members as written -/

/-- The last member of the name. -/
def last? (w : Written) (name : String) : Option Written :=
  match w with
  | object members => members.reverse.lookup (some name)
  | _ => none

theorem forall₂_of_members? {levels : Nat} {members : List (Option String × Written)}
    {ms : List (String × Json)} (h : members? levels members = some ms) :
    List.Forall₂ (fun m v => m.1 = some v.1 ∧ value? levels m.2 = some v.2) members ms := by
  induction members generalizing ms with
  | nil =>
    rw [members?, Option.some.injEq] at h
    exact h ▸ .nil
  | cons m rest ih =>
    obtain ⟨name, w⟩ := m
    unfold members? at h
    split at h
    next name v ms hv hms =>
      obtain rfl := Option.some.inj h
      exact .cons ⟨rfl, hv⟩ (ih hms)
    next => cases h

theorem rel_lookup {levels : Nat} {members : List (Option String × Written)}
    {ms : List (String × Json)}
    (h : List.Forall₂ (fun m v => m.1 = some v.1 ∧ value? levels m.2 = some v.2) members ms)
    (name : String) :
    Option.Rel (fun w v => value? levels w = some v) (members.lookup (some name))
      (ms.lookup name) := by
  induction h with
  | nil => exact .none
  | @cons m v _ _ hmember _ ih =>
    obtain ⟨name', w⟩ := m
    obtain ⟨rfl, hvalue⟩ := hmember
    rw [List.lookup_cons, List.lookup_cons]
    by_cases hname : name = v.1
    · simpa [hname] using Option.Rel.some hvalue
    · have hbeq : (name == v.1) = false := by simpa using hname
      have hbeq' : (some name == some v.1) = false := by simpa using hname
      simpa [hbeq, hbeq'] using ih

/-- An array is read item by item and an object member by member. What is
neither is read as what is neither. -/
theorem value?_forms {levels : Nat} {w : Written} {v : Json} (h : value? levels w = some v) :
    (∃ below items vs, levels = below + 1 ∧ w = array items ∧ v = .array vs ∧
        items? below items = some vs) ∨
      (∃ below members ms, levels = below + 1 ∧ w = object members ∧
        v = .object (Table.ofList ms).entries ∧ members? below members = some ms) ∨
      ((∀ items, w ≠ array items) ∧ (∀ members, w ≠ object members) ∧
        (∀ vs, v ≠ .array vs) ∧ ∀ ms, v ≠ .object ms) := by
  cases w with
  | array items =>
    cases levels with
    | zero =>
      rw [value?] at h
      cases h
    | succ below =>
      rw [value?] at h
      obtain ⟨vs, hvs, rfl⟩ := Option.map_eq_some_iff.mp h
      exact .inl ⟨below, items, vs, rfl, rfl, rfl, hvs⟩
  | object members =>
    cases levels with
    | zero =>
      rw [value?] at h
      cases h
    | succ below =>
      rw [value?] at h
      obtain ⟨ms, hms, rfl⟩ := Option.map_eq_some_iff.mp h
      exact .inr (.inl ⟨below, members, ms, rfl, rfl, rfl, hms⟩)
  | null =>
    rw [value?] at h
    obtain rfl := Option.some.inj h
    exact .inr (.inr (by simp))
  | bool b =>
    rw [value?] at h
    obtain rfl := Option.some.inj h
    exact .inr (.inr (by simp))
  | number n =>
    rw [value?] at h
    obtain ⟨_, _, rfl⟩ := Option.map_eq_some_iff.mp h
    exact .inr (.inr (by simp))
  | string s =>
    rw [value?] at h
    obtain ⟨_, _, rfl⟩ := Option.map_eq_some_iff.mp h
    exact .inr (.inr (by simp))

/-- A member of a value is the last that is written under its name. -/
theorem rel_member? {levels : Nat} {w : Written} {v : Json} (h : value? levels w = some v)
    (name : String) :
    Option.Rel (fun w v => value? (levels - 1) w = some v) (w.last? name) (v.member? name) := by
  obtain ⟨_, _, _, rfl, rfl, rfl, _⟩ | ⟨below, members, ms, rfl, rfl, rfl, hms⟩ |
    ⟨-, hw, -, hv⟩ := value?_forms h
  · exact .none
  · have hlast := rel_lookup (List.forall₂_reverse_iff.mpr (forall₂_of_members? hms)) name
    rwa [← Table.get?_ofList_last] at hlast
  · have hnone : w.last? name = none := by
      cases w with
      | object members => exact absurd rfl (hw members)
      | _ => rfl
    have hnone' : v.member? name = none := by
      cases v with
      | object ms => exact absurd rfl (hv ms)
      | _ => rfl
    rw [hnone, hnone']
    exact .none

/-! ## Values as trees -/

theorem ofItems_eq (items : List Json) : ofItems items = items.map .ofValue := by
  induction items with
  | nil => rfl
  | cons v rest ih => rw [ofItems, ih, List.map_cons]

theorem ofMembers_eq (members : List (String × Json)) :
    ofMembers members = members.map fun m => (some m.1, .ofValue m.2) := by
  induction members with
  | nil => rfl
  | cons m rest ih => rw [ofMembers, ih, List.map_cons]

/-- A field of a record is the member of its name. -/
theorem exists_record {members : List (String × Json)} (hnames : (members.map (·.1)).Nodup)
    (names : List String) :
    ∃ fields, record? names (.object (ofMembers members)) = some fields ∧
      ∀ name ∈ names, fields.lookup name = (members.lookup name).map .ofValue := by
  have hnamed : (ofMembers members).mapM (fun m => m.1.map (·, m.2)) =
      some (members.map fun m => (m.1, ofValue m.2)) := by
    rw [ofMembers_eq, mapM_eq_some_iff, List.forall₂_map_left_iff,
      List.forall₂_map_right_iff, List.forall₂_same]
    exact fun _ _ => rfl
  refine ⟨(members.map fun m => (m.1, ofValue m.2)).filter (·.1 ∈ names), ?_, ?_⟩
  · rw [record?, known?, hnamed, Option.bind_eq_bind, Option.bind_some, if_pos]
    refine (List.filter_sublist.map _).nodup ?_
    rwa [List.map_map]
  · intro name hname
    rw [lookup_filter (· ∈ names), if_pos (by simpa using hname), lookup_map_snd]

end Written

end Json

end PagePreview
