/-
PagePreview.Proofs.Node.Json — which trees come back from their JSON.

A node is written as an object in which the children are an array, so a
level of nodes costs two levels of nesting, and the deepest nodes cost two as
well: the array of their children is written though it is empty. The limit of
nesting is odd. A node that lies one level too deep is therefore cut in two,
as its object still fits and its array does not, and the reading fails. It
never takes the node for one without children.

What a node does not have is not written, and what is not written is read as
what the node does not have. So up to the limit a tree is read as it was.

* `Node.fields`, `Node.toJson_eq` — what is written for a node.
* `Node.height` — how far the descendants of a node lie below it.
* `Node.ofWritten?_ofValue_toJson` — the levels that a tree needs.
* `Node.parse?_text_toJson` — which trees come back from their text.
-/
import PagePreview.Node.Json
import PagePreview.Proofs.Json.Members

namespace PagePreview

namespace Node

open Json (Written)

/-! ## The record of a node -/

/-- The fields of a node, with their values where they have one. -/
def fields (n : Node) : List (String × Option Json) :=
  [("type", some (.string n.kind.name)),
   ("label", n.label.map .string),
   ("style", n.style.map .string),
   ("bind", n.bind.map .string),
   ("onClick", n.onClick.map .string),
   ("children", some (.array (toJsonList n.children)))]

/-- The fields that have a value. -/
def members (n : Node) : List (String × Json) :=
  n.fields.filterMap fun f => f.2.map (f.1, ·)

theorem textMember_append (name : String) (s : Option String) (fs : List (String × Option Json)) :
    textMember name s ++ fs.filterMap (fun f => f.2.map (f.1, ·)) =
      ((name, s.map Json.string) :: fs).filterMap fun f => f.2.map (f.1, ·) := by
  cases s <;> rfl

/-- A field is written if it has a value. -/
theorem toJson_eq (n : Node) : n.toJson = .object n.members := by
  obtain ⟨kind, label, style, bind, onClick, children⟩ := n
  have hchildren : [("children", Json.array (toJsonList children))] =
      [("children", some (Json.array (toJsonList children)))].filterMap
        fun f => f.2.map (f.1, ·) := rfl
  rw [toJson, ownMembers, members, fields, hchildren]
  simp only [List.cons_append, List.append_assoc, textMember_append]
  rfl

theorem nodup_fields (n : Node) : (n.fields.map (·.1)).Nodup := by
  simp [fields]

theorem nodup_members (n : Node) : (n.members.map (·.1)).Nodup :=
  (sublist_filterMap id n.fields).nodup n.nodup_fields

theorem lookup_members (n : Node) (name : String) :
    n.members.lookup name = (n.fields.lookup name).join :=
  lookup_filterMap id name n.nodup_fields

theorem mem_members {n : Node} {m : String × Json} (h : m ∈ n.members) :
    (m.1, some m.2) ∈ n.fields := by
  obtain ⟨v, hmem, rfl⟩ := mem_of_mem_filterMap (f := id) h
  exact hmem

/-- A field of the record of a node. -/
theorem exists_fields (n : Node) :
    ∃ fs, Written.record? fieldNames (.object (Written.ofMembers n.members)) = some fs ∧
      ∀ name ∈ fieldNames, fs.lookup name = ((n.fields.lookup name).join).map .ofValue := by
  obtain ⟨fs, hrecord, hlookup⟩ := Written.exists_record n.nodup_members fieldNames
  exact ⟨fs, hrecord, fun name hname => by rw [hlookup name hname, lookup_members]⟩

/-! ## Heights -/

mutual

/-- How many levels the descendants of a node reach below it. -/
def height : Node → Nat
  | ⟨_, _, _, _, _, children⟩ => heightAll children

/-- How many levels there are from the parent of nodes down to the last of
their descendants. -/
def heightAll : List Node → Nat
  | [] => 0
  | n :: rest => max (n.height + 1) (heightAll rest)

end

mutual

/-- The height bounds the depths at which the nodes are counted. -/
theorem height_le_iff : ∀ (n : Node) (depth levels : Nat),
    n.height ≤ levels ↔ ∀ e ∈ n.preorderFrom depth, e.1 ≤ depth + levels
  | ⟨kind, label, style, bind, onClick, children⟩, depth, levels => by
      rw [height, heightAll_le_iff children depth levels, preorderFrom, List.forall_mem_cons,
        and_iff_right (Nat.le_add_right depth levels)]

theorem heightAll_le_iff : ∀ (ns : List Node) (depth levels : Nat),
    heightAll ns ≤ levels ↔ ∀ e ∈ preorderList (depth + 1) ns, e.1 ≤ depth + levels
  | [], _, _ => iff_of_true (Nat.zero_le _) nofun
  | ⟨kind, label, style, bind, onClick, children⟩ :: rest, depth, 0 => by
      -- The first of the nodes is already counted one level below the parent.
      rw [heightAll, preorderList, preorderFrom]
      simp
  | n :: rest, depth, levels + 1 => by
      rw [heightAll, max_le_iff, Nat.add_le_add_iff_right, height_le_iff n (depth + 1) levels,
        heightAll_le_iff rest depth (levels + 1), preorderList, List.forall_mem_append,
        Nat.add_assoc, Nat.add_comm 1]

end

/-! ## Reading a node -/

theorem optionalText?_map_ofValue (s : Option String) :
    Written.optionalText? ((s.map Json.string).map .ofValue) = some s := by
  cases s <;> rfl

/-- A node comes back from its record if its children do. -/
theorem ofRecord?_members (levels : Nat) (readAll? : List Written → Option (List Node)) (n : Node) :
    ofRecord? levels readAll? (.object (Written.ofMembers n.members)) =
      (readAll? (Written.ofItems (toJsonList n.children))).map
        fun children => { n with children := children } := by
  obtain ⟨fs, hrecord, hlookup⟩ := n.exists_fields
  have htype : fs.lookup "type" = some (.string (some n.kind.name)) := hlookup "type" (by decide)
  have hkind : (fs.lookup "type").bind (kind? levels) = some n.kind := by
    rw [htype]
    exact NodeKind.ofName?_name n.kind
  have htext (name : String) (s : Option String) (hname : name ∈ fieldNames)
      (hs : (n.fields.lookup name).join = s.map Json.string) :
      Written.optionalText? (fs.lookup name) = some s := by
    rw [hlookup name hname, hs]
    exact optionalText?_map_ofValue s
  have hlabel := htext "label" n.label (by decide) rfl
  have hstyle := htext "style" n.style (by decide) rfl
  have hbind := htext "bind" n.bind (by decide) rfl
  have honClick := htext "onClick" n.onClick (by decide) rfl
  have hchildren : children? readAll? (fs.lookup "children") =
      readAll? (Written.ofItems (toJsonList n.children)) := by
    rw [hlookup "children" (by decide)]
    rfl
  simp only [ofRecord?, hrecord, hkind, hlabel, hstyle, hbind, honClick, hchildren,
    Option.bind_eq_bind, Option.bind_some]
  rw [Option.map_eq_bind]
  rfl

mutual

/-- A node needs two levels for itself and two for each level below it. -/
theorem ofWritten?_ofValue_toJson : ∀ (n : Node) (levels : Nat),
    ofWritten? levels (.ofValue n.toJson) = if 2 * n.height + 2 ≤ levels then some n else none
  | _, 0 => (if_neg (by omega)).symm
  | n, 1 => by
      -- The object of the node fits, but not the array of its children.
      rw [toJson_eq, Written.ofValue, ofWritten?, ofRecord?_members, if_neg (by omega)]
      rfl
  | ⟨kind, label, style, bind, onClick, children⟩, levels + 2 => by
      rw [toJson_eq, Written.ofValue, ofWritten?, ofRecord?_members,
        mapM_ofWritten?_toJsonList children levels, height]
      by_cases hlevels : 2 * heightAll children ≤ levels
      · rw [if_pos hlevels, if_pos (by omega)]
        rfl
      · rw [if_neg hlevels, if_neg (by omega)]
        rfl

theorem mapM_ofWritten?_toJsonList : ∀ (ns : List Node) (levels : Nat),
    (Written.ofItems (toJsonList ns)).mapM (ofWritten? levels) =
      if 2 * heightAll ns ≤ levels then some ns else none
  | [], levels => (if_pos (Nat.zero_le levels)).symm
  | n :: rest, levels => by
      rw [toJsonList, Written.ofItems, List.mapM_cons, ofWritten?_ofValue_toJson n levels,
        mapM_ofWritten?_toJsonList rest levels, heightAll]
      by_cases hn : 2 * n.height + 2 ≤ levels
      · by_cases hrest : 2 * heightAll rest ≤ levels
        · rw [if_pos hn, if_pos hrest, if_pos (by omega)]
          rfl
        · rw [if_pos hn, if_neg hrest, if_neg (by omega)]
          rfl
      · have hall : ¬2 * max (n.height + 1) (heightAll rest) ≤ levels := by omega
        rw [if_neg hn, if_neg hall]
        rfl

end

/-! ## The text of a node -/

theorem fits_of_text {levels : Nat} {s : Option String} {v : Json}
    (h : some v = s.map Json.string) : v.Fits levels := by
  obtain ⟨t, -, rfl⟩ := Option.map_eq_some_iff.mp h.symm
  trivial

mutual

/-- A text can hold every tree, as there are no numbers in it. -/
theorem fits_toJson : ∀ {n : Node} {levels : Nat}, 2 * n.height + 2 ≤ levels →
    n.toJson.Fits levels
  | ⟨kind, label, style, bind, onClick, children⟩, levels + 2, h => by
      have hchildren : Json.FitsItems levels (toJsonList children) :=
        fitsItems_toJsonList (Nat.le_of_add_le_add_right h)
      rw [toJson_eq]
      refine Json.fitsMembers_iff.mpr fun m hm => ?_
      have hfield := mem_members hm
      generalize m.2 = v at hfield ⊢
      simp only [fields, List.mem_cons, Prod.mk.injEq, List.not_mem_nil, or_false] at hfield
      obtain ⟨-, hv⟩ | ⟨-, hv⟩ | ⟨-, hv⟩ | ⟨-, hv⟩ | ⟨-, hv⟩ | ⟨-, hv⟩ := hfield
      · obtain rfl := Option.some.inj hv
        trivial
      · exact fits_of_text hv
      · exact fits_of_text hv
      · exact fits_of_text hv
      · exact fits_of_text hv
      · obtain rfl := Option.some.inj hv
        exact hchildren

theorem fitsItems_toJsonList : ∀ {ns : List Node} {levels : Nat}, 2 * heightAll ns ≤ levels →
    Json.FitsItems levels (toJsonList ns)
  | [], _, _ => trivial
  | n :: rest, levels, h => by
      rw [heightAll] at h
      exact ⟨fits_toJson (by omega), fitsItems_toJsonList (by omega)⟩

end

/-- What is written for a node are its fields that have a value. With levels
of nesting enough every tree comes back from it, and otherwise nothing does.
From a text a tree comes back exactly if none of its nodes lies more than
sixty-two levels below the root; any other text of a tree is refused. -/
theorem parse?_text_toJson (n : Node) :
    (∀ name, n.toJson.member? name = (n.fields.lookup name).join) ∧
      (∀ levels, ofWritten? levels (.ofValue n.toJson) =
        if 2 * n.height + 2 ≤ levels then some n else none) ∧
      parse? n.toJson.text = if ∀ e ∈ n.preorderFrom 0, e.1 ≤ 62 then some n else none := by
  refine ⟨fun name => ?_, n.ofWritten?_ofValue_toJson, ?_⟩
  · rw [toJson_eq]
    exact n.lookup_members name
  · have hheight := n.height_le_iff 0 62
    rw [parse?, Written.parse?_text (fits_toJson (Nat.le_refl _)), Option.bind_some,
      ofWritten?_ofValue_toJson, Json.depthLimit]
    rw [Nat.zero_add] at hheight
    refine if_congr ?_ rfl rfl
    rw [← hheight]
    omega

/-- A label that is empty is written, and one that is absent is not. -/
example : ({ bare .text with label := some "", children := [bare .card] } : Node).toJson.text =
    "\x7b\"type\":\"text\",\"label\":\"\",\"children\":[" ++
      "\x7b\"type\":\"card\",\"children\":[]\x7d]\x7d" := by
  decide +kernel

end Node

end PagePreview
