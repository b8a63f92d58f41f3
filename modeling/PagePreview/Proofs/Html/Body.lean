/-
PagePreview.Proofs.Html.Body — the elements of a page may be written.

Whatever the texts of a node are, they stand where they are escaped; tags
and names of attributes are the same plain words for all nodes. So a reader
of the page sees the elements as they were meant.

* `isPlain_element` — the element of a node is plain.
* `read_body` — what is read of a document's body.
-/
import PagePreview.Html.Body
import PagePreview.Proofs.Html.Reader

namespace PagePreview

namespace Html

/-! ## Attributes -/

theorem isPlainName_of_mem_attribute? {name : String} {value : Option String}
    (h : isPlainName name) : ∀ a ∈ attribute? name value, isPlainName a.name := by
  intro a ha
  obtain ⟨v, -, rfl⟩ : ∃ v, value = some v ∧ ⟨name, v⟩ = a := by simpa [attribute?] using ha
  exact h

theorem isPlainName_of_mem_styleOf (n : Node) : ∀ a ∈ styleOf n, isPlainName a.name :=
  isPlainName_of_mem_attribute? (by cbv)

theorem isPlainName_of_mem_bindOf (n : Node) : ∀ a ∈ bindOf n, isPlainName a.name :=
  isPlainName_of_mem_attribute? (by cbv)

theorem isPlainName_hint : isPlainName hint.name := by
  cbv

theorem isPlainName_of_mem_hintOf (n : Node) : ∀ a ∈ hintOf n, isPlainName a.name := by
  unfold hintOf
  split
  · simpa using isPlainName_hint
  · simp

/-! ## Elements -/

theorem isPlain_textElement (n : Node) : (textElement n).IsPlain := by
  refine ⟨by cbv, ?_, ?_⟩
  · refine List.forall_mem_append.mpr ⟨?_, isPlainName_of_mem_styleOf n⟩
    exact List.forall_mem_append.mpr
      ⟨isPlainName_of_mem_hintOf n, isPlainName_of_mem_bindOf n⟩
  · cases nonEmpty? n.label <;> simp [Markup.ArePlain, Markup.IsPlain]

theorem isPlain_buttonElement (n : Node) : (buttonElement n).IsPlain := by
  refine ⟨by cbv, ?_, trivial, trivial⟩
  exact List.forall_mem_append.mpr
    ⟨isPlainName_of_mem_styleOf n, isPlainName_of_mem_attribute? (by cbv)⟩

theorem isPlain_inputElement (n : Node) : (inputElement n).IsPlain := by
  refine ⟨by cbv, List.forall_mem_cons.mpr ⟨by cbv, ?_⟩⟩
  refine List.forall_mem_append.mpr ⟨?_, isPlainName_of_mem_bindOf n⟩
  exact List.forall_mem_append.mpr
    ⟨isPlainName_of_mem_styleOf n, isPlainName_of_mem_attribute? (by cbv)⟩

theorem isPlain_sliderElement (n : Node) : (sliderElement n).IsPlain := by
  refine ⟨by cbv, List.forall_mem_append.mpr ⟨?_, isPlainName_of_mem_bindOf n⟩⟩
  refine List.forall_mem_append.mpr ⟨?_, isPlainName_of_mem_styleOf n⟩
  simp only [List.forall_mem_cons]
  exact ⟨by cbv, by cbv, by cbv, by simp⟩

theorem isPlain_progressElement (n : Node) : (progressElement n).IsPlain := by
  refine ⟨by cbv, List.forall_mem_append.mpr ⟨?_, isPlainName_of_mem_bindOf n⟩, trivial⟩
  refine List.forall_mem_append.mpr ⟨?_, isPlainName_of_mem_styleOf n⟩
  simp only [List.forall_mem_cons]
  exact ⟨by cbv, by cbv, by simp⟩

theorem isPlain_boxElement {className : String} {n : Node} {content : List Markup}
    (h : Markup.ArePlain content) : (boxElement className n content).IsPlain :=
  ⟨by cbv, List.forall_mem_cons.mpr ⟨by cbv, isPlainName_of_mem_styleOf n⟩, h⟩

theorem isPlain_unknownNotice : unknownNotice.IsPlain :=
  ⟨by cbv, by simpa using isPlainName_hint, trivial, trivial⟩

mutual

theorem isPlain_element : ∀ n : Node, (element n).IsPlain
  | ⟨kind, label, style, bind, onClick, children⟩ => by
      have hchildren := arePlain_elements children
      cases kind with
      | text => exact isPlain_textElement _
      | button => exact isPlain_buttonElement _
      | input => exact isPlain_inputElement _
      | slider => exact isPlain_sliderElement _
      | progress => exact isPlain_progressElement _
      | unknown => exact isPlain_boxElement ⟨isPlain_unknownNotice, hchildren⟩
      | container | row | col | card | panel => exact isPlain_boxElement hchildren

theorem arePlain_elements : ∀ ns : List Node, Markup.ArePlain (elements ns)
  | [] => trivial
  | n :: rest => ⟨isPlain_element n, arePlain_elements rest⟩

end

theorem read_body (root : Node) :
    read (Markup.render (body root)) = Markup.eventsAll (body root) :=
  read_render (arePlain_elements root.children)

end Html

end PagePreview
