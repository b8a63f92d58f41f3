/-
PagePreview.Proofs.Live.Sync — what a pull does to a page.

A pull asks for the data, reads it, and writes it back before it is shown.
What comes back is what was there, so all that a pull does is to show the
data of the backend. Its request is announced in the log, and that is all
that is reported.

* `Store.parse?_json` — the data as JSON is read as the data.
* `View.refresh_refresh` — to show the data twice is to show it once.
* `LivePage.sync_eq` — a pull shows the data.
* `LivePage.sync_never_gives_up` — a pull, and several of them in a row.
-/
import PagePreview.Live.Page
import PagePreview.Proofs.Json.RoundTrip

namespace PagePreview

namespace Store

theorem fits_toJson (s : Store) : s.toJson.Fits Json.depthLimit := by
  refine Json.fitsMembers_iff.mpr fun m hm => ?_
  obtain ⟨e, -, rfl⟩ := List.mem_map.mp hm
  trivial

theorem sorted_toJson (s : Store) : s.toJson.sorted = s.toJson := by
  have hkeys : (s.entries.map fun e => (e.1, Json.string e.2)).Pairwise (·.1 < ·.1) := by
    simpa [List.pairwise_map] using s.sorted
  have hmembers : ∀ m ∈ s.entries.map fun e => (e.1, Json.string e.2), m.2.sorted = m.2 := by
    intro m hm
    obtain ⟨e, -, rfl⟩ := List.mem_map.mp hm
    rfl
  rw [toJson, Json.sorted, Json.sortedMembers_of_forall hmembers, Table.entries_ofList hkeys]

/-- The data as JSON is read as the data. -/
theorem parse?_json (s : Store) : Json.parse? s.json = some s.toJson := by
  rw [json, Json.parse?_text s.fits_toJson, s.sorted_toJson]

end Store

/-! ## Showing the data -/

namespace BoundElement

variable {e : BoundElement}

theorem display_of_text (h : e.kind = .text) (value : String) :
    e.display value = { e with text := value, bindHint := false } := by
  rw [display, h]

theorem display_of_editable (h : e.kind = .editable) (value : String) :
    e.display value = if e.focused then e else { e with value := value } := by
  rw [display, h]

theorem display_of_progress (h : e.kind = .progress) (value : String) :
    e.display value =
      if (Double.ofPageText value).isFinite then { e with progress := .ofPageText value }
      else e := by
  rw [display, h]

theorem display_cases (e : BoundElement) (value : String) :
    (e.display value).key = e.key ∧ (e.display value).kind = e.kind ∧
      (e.display value).focused = e.focused := by
  cases hkind : e.kind with
  | text =>
    rw [display_of_text hkind]
    exact ⟨rfl, hkind, rfl⟩
  | editable =>
    rw [display_of_editable hkind]
    split_ifs <;> exact ⟨rfl, hkind, rfl⟩
  | progress =>
    rw [display_of_progress hkind]
    split_ifs <;> exact ⟨rfl, hkind, rfl⟩

theorem display_display (e : BoundElement) (value : String) :
    (e.display value).display value = e.display value := by
  obtain ⟨-, hkind', hfocused⟩ := e.display_cases value
  cases hkind : e.kind with
  | text =>
    rw [hkind] at hkind'
    rw [display_of_text hkind', display_of_text hkind]
  | editable =>
    rw [hkind] at hkind'
    rw [display_of_editable hkind', display_of_editable hkind]
    split_ifs <;> rfl
  | progress =>
    rw [hkind] at hkind'
    rw [display_of_progress hkind', display_of_progress hkind]
    split_ifs <;> rfl

theorem refresh_of_some {s : Store} {value : String} (h : s.get? e.key = some value) :
    e.refresh s = e.display value := by
  rw [refresh, h]

theorem refresh_of_none {s : Store} (h : s.get? e.key = none) : e.refresh s = e := by
  rw [refresh, h]

/-- What the data is shown in keeps its key, its kind and the user. -/
theorem refresh_cases (s : Store) (e : BoundElement) :
    (e.refresh s).key = e.key ∧ (e.refresh s).kind = e.kind ∧
      (e.refresh s).focused = e.focused := by
  cases h : s.get? e.key with
  | none =>
    rw [refresh_of_none h]
    exact ⟨rfl, rfl, rfl⟩
  | some value =>
    rw [refresh_of_some h]
    exact e.display_cases value

theorem refresh_refresh (s : Store) (e : BoundElement) :
    (e.refresh s).refresh s = e.refresh s := by
  cases h : s.get? e.key with
  | none => rw [refresh_of_none h, refresh_of_none h]
  | some value =>
    have hkey : (e.display value).key = e.key := (e.display_cases value).1
    rw [refresh_of_some h, refresh_of_some (hkey ▸ h), display_display]

end BoundElement

namespace View

/-- To show the data twice is to show it once. -/
theorem refresh_refresh (v : View) (s : Store) : (v.refresh s).refresh s = v.refresh s := by
  rw [refresh, refresh, List.map_map]
  exact List.map_congr_left fun e _ => e.refresh_refresh s

end View

/-! ## A pull -/

namespace LivePage

/-- Data that is written back to where it came from changes nothing. -/
theorem writeBack_entries (s : Store) : ∀ {entries : List (String × String)},
    (∀ e ∈ entries, e ∈ s.entries) →
      writeBack s (entries.map fun e => (e.1, Json.string e.2)) = s
  | [], _ => rfl
  | (key, value) :: rest, h => by
      have hinsert : s.insert key (Json.string value).pageText = s :=
        Table.insert_of_mem (h (key, value) List.mem_cons_self)
      have hrest := writeBack_entries s fun e he => h e (List.mem_cons_of_mem _ he)
      unfold writeBack at hrest ⊢
      rw [List.map_cons, List.foldl_cons, hinsert, hrest]

theorem ofUrl_data : Request.ofUrl "GET" "/api/data" = ⟨"GET", "/api/data", []⟩ := by
  decide

/-- The data is answered, and nothing is changed. -/
theorem fetch_data (p : LivePage) :
    p.fetch (.ofUrl "GET" "/api/data") =
      ⟨some (.json p.session.store.json), p, [.dispatched "GET" "/api/data"]⟩ := by
  rw [ofUrl_data]
  rfl

/-- The answer is read as the entries of the data. -/
theorem members_json (s : Store) :
    (Json.parse? s.json).bind (·.members?) = some (s.entries.map fun e => (e.1, .string e.2)) := by
  rw [Store.parse?_json]
  rfl

/-- A pull shows the data of the backend, and does nothing else. -/
theorem sync_eq (p : LivePage) :
    p.sync = ⟨(), p.refresh, [.dispatched "GET" "/api/data"]⟩ := by
  have hback := writeBack_entries p.session.store (fun e he => he)
  have hreceived : (Json.parse? (Response.json p.session.store.json).body).bind (·.members?) =
      some (p.session.store.entries.map fun e => (e.1, Json.string e.2)) :=
    members_json p.session.store
  have hsuccess : (Response.json p.session.store.json).isSuccess := rfl
  simp only [sync, fetch_data, if_pos hsuccess, hreceived, hback]
  rfl

/-- To pull the data several times in a row is to pull it once, but for the
requests that are reported. -/
theorem syncTimes_succ (n : Nat) (p : LivePage) :
    syncTimes (n + 1) p =
      ⟨(), p.refresh, List.replicate (n + 1) (.dispatched "GET" "/api/data")⟩ := by
  induction n with
  | zero => exact p.sync_eq
  | succ n ih =>
    have hstep : syncTimes (n + 1 + 1) p = syncAfter (syncTimes (n + 1) p) := rfl
    rw [hstep, ih]
    simp only [syncAfter, sync_eq, refresh, View.refresh_refresh, List.replicate_succ']

/-- A pull never gives up, whatever texts the data is made of: it is
answered, with success, and what it is answered is read as the entries of
the data. It leaves the backend as it is and shows the data, and nothing is
reported but its request. So a second pull in a row changes nothing, and
neither does any other. -/
theorem sync_never_gives_up (p : LivePage) :
    (∃ r, p.fetch (.ofUrl "GET" "/api/data") =
        ⟨some r, p, [.dispatched "GET" "/api/data"]⟩ ∧ r.isSuccess ∧
      (Json.parse? r.body).bind (·.members?) =
        some (p.session.store.entries.map fun e => (e.1, .string e.2))) ∧
    p.sync =
      ⟨(), { p with view := p.view.refresh p.session.store },
        [.dispatched "GET" "/api/data"]⟩ ∧
    p.sync.log = [] ∧
    p.sync.state.sync.state = p.sync.state ∧
    ∀ n, syncTimes (n + 1) p =
      ⟨(), p.sync.state, List.replicate (n + 1) (.dispatched "GET" "/api/data")⟩ := by
  refine ⟨⟨_, p.fetch_data, rfl, members_json p.session.store⟩, p.sync_eq, ?_, ?_, fun n => ?_⟩
  · rw [sync_eq]
    rfl
  · simp only [sync_eq, refresh, View.refresh_refresh]
  · rw [syncTimes_succ, sync_eq]

/-- The request of a pull is reported, also on an empty page. -/
theorem records_sync_empty : (start .empty []).sync.records = [.dispatched "GET" "/api/data"] ∧
    (start .empty []).sync.records ≠ [] := by
  rw [sync_eq]
  exact ⟨rfl, List.cons_ne_nil _ _⟩

end LivePage

end PagePreview
