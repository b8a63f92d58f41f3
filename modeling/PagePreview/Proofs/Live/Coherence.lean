/-
PagePreview.Proofs.Live.Coherence — a page shows the data of its backend.

Once a page was started, whatever happens to it, each of its elements
stands for a node of the document, and says what the data says: a text the
value of its key or, without one, the label of the node, and a progress bar
the last number that it could show. A field may hold what the user types,
but right after the data was shown it holds the data unless the user is in
it.

* `BoundElement.Coherent` — what holds of an element at any time.
* `LivePage.coherent_act` — each action keeps it.
* `LivePage.coherent_after_boot` — the whole run, and what holds of the
  fields right after the data was shown.
-/
import PagePreview.Proofs.Live.Run

namespace PagePreview

/-! ## An element -/

namespace BoundElement

/-- What holds of an element with a node and data that has the keys of all
fields. -/
structure StandsFor (s : Store) (n : Node) (e : BoundElement) : Prop where
  node : ∃ e₀, ofNode? n = some e₀ ∧ e.key = e₀.key ∧ e.kind = e₀.kind
  label : e.kind = .text → s.get? e.key = none →
    e.text = n.label.getD "" ∧ e.bindHint = n.label.isNone
  finite : e.kind = .progress → e.progress.isFinite
  stored : e.kind = .editable → s.contains e.key

/-- What holds of an element when the data was shown. -/
structure Coherent (s : Store) (n : Node) (e : BoundElement) : Prop extends StandsFor s n e where
  text : e.kind = .text → ∀ value, s.get? e.key = some value →
    e.text = value ∧ e.bindHint = false
  progress : e.kind = .progress → ∀ value, s.get? e.key = some value →
    (Double.ofPageText value).isFinite → e.progress = .ofPageText value

variable {s s' : Store} {n : Node} {e e' : BoundElement}

/-- The element of a node, as it stands in the document. -/
theorem ofNode?_cases (h : ofNode? n = some e) :
    e.key ≠ "" ∧ e.focused = false ∧ e.progress = .zero false ∧
      (e.kind = .text → e.text = n.label.getD "" ∧ e.bindHint = n.label.isNone) := by
  obtain ⟨key, hkey, he⟩ := Option.bind_eq_some_iff.mp h
  have hne : key ≠ "" := (nonEmpty?_eq_some_iff.mp hkey).2
  cases hkind : n.kind <;> rw [hkind] at he <;> cases he
  case text => exact ⟨hne, rfl, rfl, fun _ => ⟨rfl, rfl⟩⟩
  all_goals exact ⟨hne, rfl, rfl, fun htext => nomatch htext⟩

theorem standsFor_of_ofNode? (h : ofNode? n = some e)
    (hstored : e.kind = .editable → s.contains e.key) : StandsFor s n e := by
  obtain ⟨-, -, hprogress, htext⟩ := ofNode?_cases h
  exact ⟨⟨e, h, rfl, rfl⟩, fun hkind _ => htext hkind, fun _ => hprogress ▸ rfl, hstored⟩

namespace StandsFor

theorem key_ne_empty (h : StandsFor s n e) : e.key ≠ "" := by
  obtain ⟨e₀, hnode, hkey, -⟩ := h.node
  exact hkey ▸ (ofNode?_cases hnode).1

/-- Data that grows takes no key from a text. -/
theorem mono (h : StandsFor s n e) (hs : s'.Extends s) : StandsFor s' n e where
  node := h.node
  label hkind hnone := h.label hkind (hs.get?_eq_none hnone)
  finite := h.finite
  stored hkind := hs e.key (h.stored hkind)

theorem retyped (h : StandsFor s n e) (hr : e.Retyped e') : StandsFor s n e' where
  node := by simpa only [hr.key, hr.kind] using h.node
  label := by simpa only [hr.key, hr.kind, hr.text, hr.bindHint] using h.label
  finite := by simpa only [hr.kind, hr.progress] using h.finite
  stored := by simpa only [hr.key, hr.kind] using h.stored

/-- What is shown in an element is what the data says. -/
theorem coherent_refresh (h : StandsFor s n e) : Coherent s n (e.refresh s) := by
  obtain ⟨hkey, hkind, -⟩ := e.refresh_cases s
  refine { node := ?_, label := ?_, finite := ?_, stored := ?_, text := ?_, progress := ?_ }
  all_goals rw [hkind]
  · rw [hkey]
    exact h.node
  · intro htext hnone
    rw [hkey] at hnone
    rw [refresh_of_none hnone]
    exact h.label htext hnone
  · intro hprogress
    cases hvalue : s.get? e.key with
    | none =>
      rw [refresh_of_none hvalue]
      exact h.finite hprogress
    | some value =>
      rw [refresh_of_some hvalue, display_of_progress hprogress]
      split_ifs with hfinite
      · exact hfinite
      · exact h.finite hprogress
  · rw [hkey]
    exact h.stored
  · intro htext value hvalue
    rw [hkey] at hvalue
    rw [refresh_of_some hvalue, display_of_text htext]
    exact ⟨rfl, rfl⟩
  · intro hprogress value hvalue hfinite
    rw [hkey] at hvalue
    rw [refresh_of_some hvalue, display_of_progress hprogress, if_pos hfinite]

end StandsFor

theorem Coherent.retyped (h : Coherent s n e) (hr : e.Retyped e') : Coherent s n e' where
  toStandsFor := h.toStandsFor.retyped hr
  text := by simpa only [hr.key, hr.kind, hr.text, hr.bindHint] using h.text
  progress := by simpa only [hr.key, hr.kind, hr.progress] using h.progress

/-- A field that the user is not in shows the data. -/
theorem refresh_editable (hkind : e.kind = .editable) (hstored : s.contains e.key) :
    (e.refresh s).focused ∨ s.get? e.key = some (e.refresh s).value := by
  obtain ⟨value, hvalue⟩ := Option.isSome_iff_exists.mp hstored
  rw [refresh_of_some hvalue, display_of_editable hkind]
  split_ifs with hfocused
  · exact .inl hfocused
  · exact .inr hvalue

end BoundElement

/-! ## A page -/

/-- What holds between two lists, and then between the second and a third,
place by place. -/
theorem forall₂_comp {α β γ : Type} {R : α → β → Prop} {S : β → γ → Prop} {T : α → γ → Prop}
    (h : ∀ a b c, R a b → S b c → T a c) {as : List α} {bs : List β} {cs : List γ} :
    List.Forall₂ R as bs → List.Forall₂ S bs cs → List.Forall₂ T as cs
  | .nil, .nil => .nil
  | .cons hr hrs, .cons hs hss => .cons (h _ _ _ hr hs) (forall₂_comp h hrs hss)

/-- The nodes that a page has elements for, in document order. -/
def Node.bound (root : Node) : List Node :=
  root.preorder.filter fun n => (BoundElement.ofNode? n).isSome

namespace View

/-- The elements of a document are the elements of its nodes. -/
theorem forall₂_ofDocument (root : Node) :
    List.Forall₂ (fun n e => BoundElement.ofNode? n = some e ∧ e ∈ ofDocument root)
      root.bound (ofDocument root) := by
  suffices h : List.Forall₂ (fun n e => BoundElement.ofNode? n = some e)
      root.bound (ofDocument root) from
    List.forall₂_iff_get.mpr ⟨h.length_eq, fun _ hi hi' => ⟨h.get hi hi', List.get_mem _ _⟩⟩
  unfold Node.bound ofDocument
  induction root.preorder with
  | nil => exact .nil
  | cons n ns ih =>
    cases h : BoundElement.ofNode? n with
    | none =>
      rw [List.filter_cons_of_neg (by simp [h]), List.filterMap_cons_none h]
      exact ih
    | some e =>
      rw [List.filter_cons_of_pos (by simp [h]), List.filterMap_cons_some h]
      exact .cons h ih

end View

namespace LivePage

/-- The elements of a page stand for the nodes of a document and agree with
the data. -/
def Coherent (root : Node) (p : LivePage) : Prop :=
  List.Forall₂ (BoundElement.Coherent p.session.store) root.bound p.view

/-- All fields show the data, except for the one that the user is in. -/
def FieldsShown (p : LivePage) : Prop :=
  ∀ e ∈ p.view, e.kind = .editable → e.focused ∨ p.session.store.get? e.key = some e.value

variable {p p' : LivePage} {root : Node}

theorem Coherent.exists_of_mem (h : p.Coherent root) {e : BoundElement} (he : e ∈ p.view) :
    ∃ n, BoundElement.Coherent p.session.store n e := by
  obtain ⟨i, hi, rfl⟩ := List.getElem_of_mem he
  exact ⟨_, h.get (h.length_eq ▸ hi) hi⟩

theorem Keeps.coherent (h : p.Keeps p') (hp : p.Coherent root) : p'.Coherent root := by
  obtain ⟨hstore, hview⟩ := h
  rw [Coherent, hstore]
  exact forall₂_comp (fun _ _ _ hc hr => hc.retyped hr) hp hview

theorem Shows.coherent (h : p.Shows p')
    (hp : List.Forall₂ (BoundElement.StandsFor p.session.store) root.bound p.view) :
    p'.Coherent root := by
  obtain ⟨hstore, v, hv, hview⟩ := h
  rw [Coherent, hview]
  refine List.forall₂_map_right_iff.mpr (forall₂_comp (fun _ _ _ hs hr => ?_) hp hv)
  exact ((hs.mono hstore).retyped hr).coherent_refresh

theorem Shows.fieldsShown (h : p.Shows p') (hp : p'.Coherent root) : p'.FieldsShown := by
  obtain ⟨-, v, -, hview⟩ := h
  intro e' he' hkind
  obtain ⟨n, hcoherent⟩ := hp.exists_of_mem he'
  have hstored := hcoherent.stored hkind
  rw [hview] at he'
  obtain ⟨e, -, rfl⟩ := List.mem_map.mp he'
  obtain ⟨hkey, hkind', -⟩ := e.refresh_cases p'.session.store
  rw [hkey] at hstored ⊢
  exact BoundElement.refresh_editable (hkind' ▸ hkind) hstored

theorem Coherent.key_ne_empty (h : p.Coherent root) (e : BoundElement) (he : e ∈ p.view) :
    e.key ≠ "" :=
  (h.exists_of_mem he).elim fun _ hn => hn.key_ne_empty

/-- Each action keeps the elements and the data together. -/
theorem coherent_act (h : p.Coherent root) (a : Action) : (p.act a).Coherent root := by
  rcases act_cases h.key_ne_empty a with hshows | ⟨-, hkeeps⟩
  · exact hshows.coherent (h.imp fun _ _ hn => hn.toStandsFor)
  · exact hkeeps.coherent h

theorem fieldsShown_act (h : p.Coherent root) {a : Action} (ha : p.Refreshes a) :
    (p.act a).FieldsShown := by
  rcases act_cases h.key_ne_empty a with hshows | ⟨hnot, -⟩
  · exact hshows.fieldsShown (coherent_act h a)
  · exact absurd ha hnot

theorem coherent_run (actions : List Action) (h : p.Coherent root) :
    (p.run actions).Coherent root :=
  run_of_act (motive := (Coherent root)) (fun _ a h => coherent_act h a) actions h

/-- A start gives the elements of a document the data that they stand for. -/
theorem coherent_boot (b : Bootstrap) (root : Node) :
    (start b (.ofDocument root)).boot.state.Coherent root := by
  rw [boot_state]
  refine (displays_refresh _).refresh.shows.coherent ?_
  refine (View.forall₂_ofDocument root).imp fun n e ⟨he, hmem⟩ => ?_
  refine BoundElement.standsFor_of_ofNode? he fun hkind => contains_seed ?_ _
  exact List.mem_map_of_mem (List.mem_filter.mpr ⟨hmem, by simpa using hkind⟩)

/-- A page that was started shows the data of its backend, whatever happens
to it, and right after the data was shown so do its fields. -/
theorem coherent_after_boot (b : Bootstrap) (root : Node) :
    (start b (.ofDocument root)).boot.state.FieldsShown ∧
      ∀ actions : List Action,
        ((start b (.ofDocument root)).boot.state.run actions).Coherent root ∧
        ∀ a, ((start b (.ofDocument root)).boot.state.run actions).Refreshes a →
          (((start b (.ofDocument root)).boot.state.run actions).act a).FieldsShown := by
  have hboot := coherent_boot b root
  refine ⟨(displays_boot _).shows.fieldsShown hboot, fun actions => ?_⟩
  have hrun := coherent_run actions hboot
  exact ⟨hrun, fun _ => fieldsShown_act hrun⟩

/-- A text and a field that follow one key. -/
def twoBound : Node :=
  ⟨.container, none, none, none, none,
    [⟨.text, none, none, some "name", none, []⟩, ⟨.input, none, none, some "name", none, []⟩]⟩

/-- The user is in the text, and edits the field. -/
theorem coherent_after_boot_edit :
    let p := (start .empty (.ofDocument twoBound)).boot.state.run [.focus (some 0)]
    p.Refreshes (.change 1 "Ada") ∧ (p.act (.change 1 "Ada")).FieldsShown := by
  intro p
  have hfield : p.Refreshes (.change 1 "Ada") := by
    change ∃ e, (View.focus (start .empty (.ofDocument twoBound)).boot.state.view
      (some 0))[1]? = some e ∧ e.kind = .editable
    rw [boot_state]
    exact ⟨_, rfl, rfl⟩
  exact ⟨hfield, ((coherent_after_boot .empty twoBound).2 [.focus (some 0)]).2 _ hfield⟩

end LivePage

end PagePreview
