/-
PagePreview.Proofs.Live.Boot — a page can be started again.

A start gives every field a text to show and then shows the data. The text
is empty, and only given where there is none, so the first start settles
which keys there are: the fields of the page stay the same, and a second
start finds a text under each of their keys. Elements that show the data go
on to show it, also when the user goes into them and types.

* `BoundElement.Entered` — an element before and after the user went into it.
* `LivePage.get?_seed` — the data with the missing keys.
* `LivePage.boot_entered` — a second start.
* `LivePage.boot_spec` — all of it together.
-/
import PagePreview.Proofs.Live.Run

namespace PagePreview

/-! ## Going into an element -/

namespace BoundElement

/-- The second element is the first, or the user went into it and may have
typed. -/
def Entered (e e' : BoundElement) : Prop :=
  e' = e ∨ e.Retyped e' ∧ e'.focused

variable {s : Store} {e e' : BoundElement}

/-- An element that shows the data goes on to show it when the user goes into
it and types. -/
theorem Entered.refresh_eq (h : e.Entered e') (he : e.refresh s = e) : e'.refresh s = e' := by
  rcases h with rfl | ⟨hr, hfocused⟩
  · exact he
  · cases hvalue : s.get? e.key with
    | none => rw [refresh_of_none (hr.key ▸ hvalue)]
    | some value =>
      rw [refresh_of_some hvalue] at he
      rw [refresh_of_some (hr.key ▸ hvalue)]
      cases hkind : e.kind with
      | text =>
        rw [display_of_text hkind] at he
        rw [display_of_text (hr.kind.trans hkind)]
        have htext : value = e'.text := hr.text ▸ congrArg text he
        have hhint : false = e'.bindHint := hr.bindHint ▸ congrArg bindHint he
        rw [htext, hhint]
      | editable => rw [display_of_editable (hr.kind.trans hkind), if_pos hfocused]
      | progress =>
        rw [display_of_progress hkind] at he
        rw [display_of_progress (hr.kind.trans hkind)]
        split_ifs at he ⊢ with hfinite
        · have hprogress : Double.ofPageText value = e'.progress :=
            hr.progress ▸ congrArg progress he
          rw [hprogress]
        · rfl

end BoundElement

namespace View

theorem editableKeys_refresh (v : View) (s : Store) :
    (v.refresh s).editableKeys = v.editableKeys := by
  unfold editableKeys refresh
  rw [List.filter_map, List.map_map]
  have hkind : ∀ e : BoundElement, ((e.refresh s).kind == .editable) = (e.kind == .editable) :=
    fun e => by rw [(e.refresh_cases s).2.1]
  have hkey : ∀ e : BoundElement, (e.refresh s).key = e.key := fun e => (e.refresh_cases s).1
  simp only [Function.comp_def, hkind, hkey]

theorem editableKeys_entered {v v' : View} (h : List.Forall₂ BoundElement.Entered v v') :
    v'.editableKeys = v.editableKeys := by
  induction h with
  | nil => rfl
  | @cons e e' v v' he _ ih =>
    have hsame : e'.key = e.key ∧ e'.kind = e.kind := by
      rcases he with rfl | ⟨hr, -⟩
      · exact ⟨rfl, rfl⟩
      · exact ⟨hr.key, hr.kind⟩
    unfold editableKeys at ih ⊢
    by_cases hkind : e.kind = .editable
    · simp [hsame, hkind, ih]
    · simp [hsame, hkind, ih]

/-- A view that shows the data goes on to show it when the user goes into its
elements and types. -/
theorem refresh_entered {v v' : View} {s : Store} (h : List.Forall₂ BoundElement.Entered v v')
    (hv : ∀ e ∈ v, e.refresh s = e) : v'.refresh s = v' := by
  induction h with
  | nil => rfl
  | @cons e e' v v' he _ ih =>
    obtain ⟨hfirst, hrest⟩ := List.forall_mem_cons.mp hv
    have htail := ih hrest
    unfold refresh at htail ⊢
    rw [List.map_cons, he.refresh_eq hfirst, htail]

end View

namespace LivePage

/-! ## Missing keys -/

/-- A key that is there keeps its text, and a missing one gets an empty text
if it is asked for. -/
theorem get?_seed (keys : List String) (s : Store) (k : String) :
    (seed s keys).get? k = (s.get? k).or (if k ∈ keys then some "" else none) := by
  induction keys generalizing s with
  | nil => simp [seed]
  | cons key keys ih =>
    have hstep : ∀ s : Store, seed s (key :: keys) =
        seed (if s.contains key then s else s.insert key "") keys := fun _ => rfl
    rw [hstep, ih]
    by_cases hs : s.contains key
    · obtain ⟨value, hvalue⟩ := Option.isSome_iff_exists.mp hs
      rw [if_pos hs]
      by_cases hk : k = key
      · simp [hk, hvalue]
      · simp [hk]
    · have hnone : s.get? key = none := by
        rwa [Table.contains, Option.isSome_iff_ne_none, not_not] at hs
      rw [if_neg hs, Table.get?_insert]
      by_cases hk : k = key
      · simp [hk, hnone]
      · simp [hk]

/-- Where no key is missing, nothing is added. -/
theorem seed_seed (keys : List String) (s : Store) : seed (seed s keys) keys = seed s keys := by
  refine Table.ext_get? fun k => ?_
  rw [get?_seed, get?_seed]
  cases s.get? k <;> split_ifs <;> rfl

/-! ## The start of a page -/

/-- To start a page is to give the fields a value and to show the data. -/
theorem boot_eq (p : LivePage) :
    p.boot =
      ⟨(), (p.withStore (seed p.session.store p.view.editableKeys)).refresh,
        [.dispatched "GET" "/api/data"]⟩ := by
  rw [boot, sync_eq]
  simp only [refresh, View.refresh_refresh]

theorem store_boot (p : LivePage) :
    p.boot.state.session.store = seed p.session.store p.view.editableKeys := by
  rw [boot_eq]
  rfl

theorem view_boot (p : LivePage) :
    p.boot.state.view = p.view.refresh p.boot.state.session.store := by
  rw [boot_eq]
  rfl

/-- A field has a text under its key, and shows it unless the user is in the
field. -/
theorem field_boot {p : LivePage} {i : Nat} {e : BoundElement} (he : p.view[i]? = some e)
    (hkind : e.kind = .editable) :
    ∃ value, p.boot.state.session.store.get? e.key = some value ∧
      p.boot.state.view[i]? = some (if e.focused then e else { e with value := value }) := by
  have hmem : e.key ∈ p.view.editableKeys := by
    refine List.mem_map.mpr ⟨e, List.mem_filter.mpr ⟨List.mem_of_getElem? he, ?_⟩, rfl⟩
    rw [hkind]
    rfl
  obtain ⟨value, hvalue⟩ := Option.isSome_iff_exists.mp (contains_seed hmem p.session.store)
  rw [← store_boot] at hvalue
  refine ⟨value, hvalue, ?_⟩
  rw [view_boot, View.refresh, List.getElem?_map, he, Option.map_some,
    BoundElement.refresh_of_some hvalue, BoundElement.display_of_editable hkind]

/-- A second start changes nothing, if all that the user did since the first
was to go into elements and to type. -/
theorem boot_entered {p : LivePage} {v : View}
    (h : List.Forall₂ BoundElement.Entered p.boot.state.view v) :
    ({ p.boot.state with view := v } : LivePage).boot =
      ⟨(), { p.boot.state with view := v }, [.dispatched "GET" "/api/data"]⟩ := by
  have hseed : seed p.boot.state.session.store v.editableKeys = p.boot.state.session.store := by
    rw [View.editableKeys_entered h, view_boot, View.editableKeys_refresh, store_boot, seed_seed]
  have hshown : ∀ e ∈ p.boot.state.view, e.refresh p.boot.state.session.store = e := by
    intro e he
    rw [view_boot] at he
    obtain ⟨d, -, rfl⟩ := List.mem_map.mp he
    exact d.refresh_refresh p.boot.state.session.store
  rw [boot_eq]
  simp only [refresh, withStore, hseed, View.refresh_entered h hshown]

/-- A start keeps the data that is there, and adds an empty text for each key
of a field that has none. All elements then show the data, but for the fields
that the user is in. A second start changes nothing, and neither does it if
the user went into elements after the first and typed. -/
theorem boot_spec (p : LivePage) :
    let q := p.boot.state
    p.boot = ⟨(), { p with
      session := { p.session with store := q.session.store }
      view := p.view.refresh q.session.store }, [.dispatched "GET" "/api/data"]⟩ ∧
    (∀ k, q.session.store.get? k =
      match p.session.store.get? k with
      | some value => some value
      | none => if k ∈ p.view.editableKeys then some "" else none) ∧
    (∀ (i : Nat) (e : BoundElement), p.view[i]? = some e → e.kind = .editable →
      ∃ value, q.session.store.get? e.key = some value ∧
        q.view[i]? = some (if e.focused then e else { e with value := value })) ∧
    q.boot = ⟨(), q, [.dispatched "GET" "/api/data"]⟩ ∧
    ∀ v : View, List.Forall₂ BoundElement.Entered q.view v →
      ({ q with view := v } : LivePage).boot =
        ⟨(), { q with view := v }, [.dispatched "GET" "/api/data"]⟩ := by
  intro q
  have hself : List.Forall₂ BoundElement.Entered q.view q.view :=
    List.forall₂_same.mpr fun e _ => .inl rfl
  refine ⟨?_, fun k => ?_, fun i e he hkind => field_boot he hkind, boot_entered hself,
    fun v hv => boot_entered hv⟩
  · rw [p.store_boot, boot_eq]
    rfl
  · rw [p.store_boot, get?_seed]
    cases p.session.store.get? k <;> rfl

/-- Two fields with one key. The user is in the first when the page starts,
and types in the second before it starts again. -/
theorem boot_spec_typed :
    let p := start .empty [{ BoundElement.fresh "k" .editable with value := "a", focused := true },
      .fresh "k" .editable]
    let v : View := [{ BoundElement.fresh "k" .editable with value := "a", focused := true },
      { BoundElement.fresh "k" .editable with value := "b", focused := true }]
    List.Forall₂ BoundElement.Entered p.boot.state.view v ∧
      ({ p.boot.state with view := v } : LivePage).boot.state.view = v := by
  intro p v
  have hview : p.boot.state.view =
      [{ BoundElement.fresh "k" .editable with value := "a", focused := true },
        .fresh "k" .editable] := by
    rw [boot_eq]
    decide +kernel
  have hentered : List.Forall₂ BoundElement.Entered p.boot.state.view v := by
    rw [hview]
    exact .cons (.inl rfl) (.cons (.inr ⟨⟨rfl, rfl, rfl, rfl, rfl⟩, rfl⟩) .nil)
  exact ⟨hentered, congrArg (fun step => step.state.view) ((boot_spec p).2.2.2.2 v hentered)⟩

end LivePage

end PagePreview
