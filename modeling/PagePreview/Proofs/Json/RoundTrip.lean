/-
PagePreview.Proofs.Json.RoundTrip — a value that is written is read.

The words of a value take the machine that reads them from a place where a
value is expected to one where the value is complete, with the same arrays
and objects open and with any words behind them. The members of an object
come back in the order of their names, so a value comes back as it was if
its objects are sorted, which those of a value that was read are.

* `Written.parse?_text` — the tree of the text of a value.
* `Json.sorted` — a value with its objects sorted.
* `Written.wholeValue?_ofValue` — the value of the tree of a value.
* `parse?_text` — the value of the text of a value.
* `fits_of_parse?` — a value that was read can be read again.
-/
import PagePreview.Json.Written
import PagePreview.Proofs.Json.Words
import PagePreview.Proofs.Table

namespace PagePreview

namespace Json

namespace Written

/-! ## Trees -/

theorem foldlM_cons {s s' : State} {w : Word} (h : step s w = some s') (ws : List Word) :
    (w :: ws).foldlM step s = ws.foldlM step s' := by
  rw [List.foldlM_cons, h]
  rfl

/-- The first item of an array is read like any other. -/
theorem foldlM_firstItem (v : Json) (ws : List Word) (outer : List Frame) :
    (v.wordsOf ++ ws).foldlM step (.firstItem outer) =
      (v.wordsOf ++ ws).foldlM step (.value (.array [] :: outer)) := by
  cases v <;> rfl

mutual

/-- The words of a value complete the value, with any words behind them. -/
theorem foldlM_wordsOf : ∀ (v : Json) (ws : List Word) (outer : List Frame),
    (v.wordsOf ++ ws).foldlM step (.value outer) = ws.foldlM step (.done (ofValue v) outer)
  | .null, _, _ => rfl
  | .bool _, _, _ => rfl
  | .number _, _, _ => rfl
  | .string _, _, _ => rfl
  | .array [], _, _ => rfl
  | .array (v :: items), ws, outer => by
      have hfirst : ∀ rest : List Word,
          (itemWords (v :: items) ++ rest).foldlM step (.firstItem outer) =
            (itemWords (v :: items) ++ rest).foldlM step (.value (.array [] :: outer)) := by
        intro rest
        cases items with
        | nil => exact foldlM_firstItem v rest outer
        | cons w items =>
          rw [itemWords, List.append_assoc]
          · exact foldlM_firstItem v _ outer
          · exact List.cons_ne_nil w items
      rw [wordsOf, List.cons_append, List.append_assoc, List.singleton_append, foldlM_cons rfl,
        hfirst, foldlM_itemWords (v :: items) (List.cons_ne_nil v items)]
      rfl
  | .object [], _, _ => rfl
  | .object (m :: members), ws, outer => by
      have hfirst : ∀ rest : List Word,
          (memberWords (m :: members) ++ rest).foldlM step (.firstName outer) =
            (memberWords (m :: members) ++ rest).foldlM step (.name [] outer) := by
        intro rest
        cases members <;> rfl
      rw [wordsOf, List.cons_append, List.append_assoc, List.singleton_append, foldlM_cons rfl,
        hfirst, foldlM_memberWords (m :: members) (List.cons_ne_nil m members)]
      rfl

/-- The words of the remaining items complete the array. -/
theorem foldlM_itemWords : ∀ (items : List Json), items ≠ [] →
    ∀ (read : List Written) (ws : List Word) (outer : List Frame),
      (itemWords items ++ .closeArray :: ws).foldlM step (.value (.array read :: outer)) =
        ws.foldlM step (.done (.array (read.reverse ++ ofItems items)) outer)
  | [], h, _, _, _ => absurd rfl h
  | [v], _, read, ws, outer => by
      rw [itemWords, foldlM_wordsOf v, foldlM_cons rfl, List.reverse_cons]
      rfl
  | v :: w :: items, _, read, ws, outer => by
      rw [itemWords, List.append_assoc, List.cons_append, foldlM_wordsOf v, foldlM_cons rfl,
        foldlM_itemWords (w :: items) (List.cons_ne_nil w items), List.reverse_cons,
        List.append_assoc]
      · rfl
      · exact List.cons_ne_nil w items

/-- The words of the remaining members complete the object. -/
theorem foldlM_memberWords : ∀ (members : List (String × Json)), members ≠ [] →
    ∀ (read : List (Option String × Written)) (ws : List Word) (outer : List Frame),
      (memberWords members ++ .closeObject :: ws).foldlM step (.name read outer) =
        ws.foldlM step (.done (.object (read.reverse ++ ofMembers members)) outer)
  | [], h, _, _, _ => absurd rfl h
  | [(name, v)], _, read, ws, outer => by
      rw [memberWords, List.cons_append, List.cons_append, foldlM_cons rfl, foldlM_cons rfl,
        foldlM_wordsOf v, foldlM_cons rfl, List.reverse_cons]
      rfl
  | (name, v) :: m :: members, _, read, ws, outer => by
      rw [memberWords, List.cons_append, List.cons_append, List.append_assoc, List.cons_append,
        foldlM_cons rfl, foldlM_cons rfl, foldlM_wordsOf v, foldlM_cons rfl,
        foldlM_memberWords (m :: members) (List.cons_ne_nil m members), List.reverse_cons,
        List.append_assoc]
      · rfl
      · exact List.cons_ne_nil m members

end

theorem ofWords?_wordsOf (v : Json) : ofWords? v.wordsOf = some (ofValue v) := by
  have hfold := foldlM_wordsOf v [] []
  rw [List.append_nil] at hfold
  rw [ofWords?, hfold]
  rfl

/-- The text of a value is read as the tree of the value. -/
theorem parse?_text {levels : Nat} {v : Json} (h : v.Fits levels) :
    parse? v.text = some (ofValue v) := by
  rw [parse?, words?_text h, Option.bind_some, ofWords?_wordsOf]

end Written

/-! ## Values -/

mutual

/-- A value with its objects sorted. -/
def sorted : Json → Json
  | null => null
  | bool b => bool b
  | number n => number n
  | string s => string s
  | array items => array (sortedItems items)
  | object members => object (Table.ofList (sortedMembers members)).entries

def sortedItems : List Json → List Json
  | [] => []
  | v :: rest => v.sorted :: sortedItems rest

def sortedMembers : List (String × Json) → List (String × Json)
  | [] => []
  | (name, v) :: rest => (name, v.sorted) :: sortedMembers rest

end

theorem sortedItems_eq (items : List Json) : sortedItems items = items.map sorted := by
  induction items with
  | nil => rfl
  | cons v rest ih => rw [sortedItems, ih, List.map_cons]

theorem sortedMembers_eq (members : List (String × Json)) :
    sortedMembers members = members.map fun m => (m.1, m.2.sorted) := by
  induction members with
  | nil => rfl
  | cons m rest ih => rw [sortedMembers, ih, List.map_cons]

theorem sortedItems_of_forall {items : List Json} (h : ∀ v ∈ items, v.sorted = v) :
    sortedItems items = items := by
  rw [sortedItems_eq]
  exact (List.map_congr_left h).trans (List.map_id' items)

theorem sortedMembers_of_forall {members : List (String × Json)}
    (h : ∀ m ∈ members, m.2.sorted = m.2) : sortedMembers members = members := by
  rw [sortedMembers_eq]
  refine (List.map_congr_left fun m hm => ?_).trans (List.map_id' members)
  rw [h m hm]

mutual

theorem sorted_sorted : ∀ v : Json, v.sorted.sorted = v.sorted
  | null => rfl
  | bool _ => rfl
  | number _ => rfl
  | string _ => rfl
  | array items => by
      rw [sorted, sorted, sortedItems_of_forall (sorted_of_mem_sortedItems items)]
  | object members => by
      have hall := fun m hm => sorted_of_mem_sortedMembers members m (Table.mem_of_mem_ofList hm)
      rw [sorted, sorted, sortedMembers_of_forall hall, Table.ofList_entries]

theorem sorted_of_mem_sortedItems : ∀ (items : List Json), ∀ v ∈ sortedItems items, v.sorted = v
  | [] => fun _ h => absurd h List.not_mem_nil
  | v :: rest => List.forall_mem_cons.mpr ⟨sorted_sorted v, sorted_of_mem_sortedItems rest⟩

theorem sorted_of_mem_sortedMembers : ∀ (members : List (String × Json)),
    ∀ m ∈ sortedMembers members, m.2.sorted = m.2
  | [] => fun _ h => absurd h List.not_mem_nil
  | (_, v) :: rest => List.forall_mem_cons.mpr ⟨sorted_sorted v, sorted_of_mem_sortedMembers rest⟩

end

/-- What a sorted array holds is sorted. -/
theorem sorted_of_mem_array {items : List Json} (h : (array items).sorted = array items) :
    ∀ v ∈ items, v.sorted = v := by
  rw [sorted, array.injEq] at h
  exact h ▸ sorted_of_mem_sortedItems items

/-- What a sorted object holds is sorted, and it is strictly sorted itself. -/
theorem sorted_of_mem_object {members : List (String × Json)}
    (h : (object members).sorted = object members) :
    members.Pairwise (·.1 < ·.1) ∧ ∀ m ∈ members, m.2.sorted = m.2 := by
  rw [sorted, object.injEq] at h
  refine ⟨h ▸ (Table.ofList (sortedMembers members)).sorted, fun m hm => ?_⟩
  rw [← h] at hm
  exact sorted_of_mem_sortedMembers members m (Table.mem_of_mem_ofList hm)

namespace Written

mutual

/-- A value is read from its tree where there are levels enough. -/
theorem value?_ofValue_of_depth_le : ∀ {levels : Nat} {v : Json}, (ofValue v).depth ≤ levels →
    value? levels (ofValue v) = some v.sorted
  | _, .null, _ => by rw [ofValue, value?, sorted]
  | _, .bool b, _ => by rw [ofValue, value?, sorted]
  | _, .number n, _ => by rw [ofValue, value?, sorted, Option.map_some]
  | _, .string s, _ => by rw [ofValue, value?, sorted, Option.map_some]
  | levels + 1, .array items, h => by
      have hitems : itemsDepth (ofItems items) ≤ levels := Nat.le_of_succ_le_succ h
      rw [ofValue, value?, items?_ofItems hitems, Option.map_some, sorted]
  | levels + 1, .object members, h => by
      have hmembers : membersDepth (ofMembers members) ≤ levels := Nat.le_of_succ_le_succ h
      rw [ofValue, value?, members?_ofMembers hmembers, Option.map_some, sorted]

theorem items?_ofItems : ∀ {levels : Nat} {items : List Json},
    itemsDepth (ofItems items) ≤ levels → items? levels (ofItems items) = some (sortedItems items)
  | _, [], _ => by rw [ofItems, items?, sortedItems]
  | _, v :: rest, h => by
      obtain ⟨hv, hrest⟩ := Nat.max_le.mp h
      rw [ofItems, items?, value?_ofValue_of_depth_le hv, items?_ofItems hrest, sortedItems]

theorem members?_ofMembers : ∀ {levels : Nat} {members : List (String × Json)},
    membersDepth (ofMembers members) ≤ levels →
      members? levels (ofMembers members) = some (sortedMembers members)
  | _, [], _ => by rw [ofMembers, members?, sortedMembers]
  | _, (name, v) :: rest, h => by
      obtain ⟨hv, hrest⟩ := Nat.max_le.mp h
      simp only [ofMembers, members?, value?_ofValue_of_depth_le hv, members?_ofMembers hrest,
        sortedMembers]

end

theorem wholeValue?_ofValue (v : Json) : wholeValue? (ofValue v) = some v.sorted :=
  value?_ofValue_of_depth_le (Nat.le_refl _)

mutual

/-- A value that is read is read wherever there are levels enough. -/
theorem value?_of_depth_le : ∀ {levels levels' : Nat} {w : Written} {v : Json},
    value? levels w = some v → w.depth ≤ levels' → value? levels' w = some v
  | _, _, null, _, h, _ => by rwa [value?] at h ⊢
  | _, _, bool _, _, h, _ => by rwa [value?] at h ⊢
  | _, _, number _, _, h, _ => by rwa [value?] at h ⊢
  | _, _, string _, _, h, _ => by rwa [value?] at h ⊢
  | 0, _, array _, _, h, _ => by
      rw [value?] at h
      exact nomatch h
  | levels + 1, levels' + 1, array items, _, h, hdepth => by
      rw [value?] at h
      obtain ⟨vs, hvs, rfl⟩ := Option.map_eq_some_iff.mp h
      rw [value?, items?_of_depth_le hvs (Nat.le_of_succ_le_succ hdepth), Option.map_some]
  | 0, _, object _, _, h, _ => by
      rw [value?] at h
      exact nomatch h
  | levels + 1, levels' + 1, object members, _, h, hdepth => by
      rw [value?] at h
      obtain ⟨ms, hms, rfl⟩ := Option.map_eq_some_iff.mp h
      rw [value?, members?_of_depth_le hms (Nat.le_of_succ_le_succ hdepth), Option.map_some]

theorem items?_of_depth_le : ∀ {levels levels' : Nat} {items : List Written} {vs : List Json},
    items? levels items = some vs → itemsDepth items ≤ levels' → items? levels' items = some vs
  | _, _, [], _, h, _ => by rwa [items?] at h ⊢
  | _, _, w :: rest, _, h, hdepth => by
      obtain ⟨hw, hrest⟩ := Nat.max_le.mp hdepth
      rw [items?] at h
      split at h
      next v vs hv hvs =>
        rw [items?, value?_of_depth_le hv hw, items?_of_depth_le hvs hrest]
        exact h
      next => exact nomatch h

theorem members?_of_depth_le : ∀ {levels levels' : Nat} {members : List (Option String × Written)}
    {ms : List (String × Json)}, members? levels members = some ms →
      membersDepth members ≤ levels' → members? levels' members = some ms
  | _, _, [], _, h, _ => by rwa [members?] at h ⊢
  | _, _, (name, w) :: rest, _, h, hdepth => by
      obtain ⟨hw, hrest⟩ := Nat.max_le.mp hdepth
      unfold members? at h
      split at h
      next name v ms hv hms =>
        simp only [members?, value?_of_depth_le hv hw, members?_of_depth_le hms hrest]
        exact h
      next => exact nomatch h

end

/-- In particular where there are as many as the tree is deep. -/
theorem wholeValue?_of_value? {levels : Nat} {w : Written} {v : Json}
    (h : value? levels w = some v) : w.wholeValue? = some v :=
  value?_of_depth_le h (Nat.le_refl _)

mutual

theorem depth_ofValue_le : ∀ {levels : Nat} {v : Json}, v.Fits levels → (ofValue v).depth ≤ levels
  | _, .null, _ => Nat.zero_le _
  | _, .bool _, _ => Nat.zero_le _
  | _, .number _, _ => Nat.zero_le _
  | _, .string _, _ => Nat.zero_le _
  | _ + 1, .array _, h => Nat.succ_le_succ (itemsDepth_ofItems_le h)
  | _ + 1, .object _, h => Nat.succ_le_succ (membersDepth_ofMembers_le h)

theorem itemsDepth_ofItems_le : ∀ {levels : Nat} {items : List Json}, FitsItems levels items →
    itemsDepth (ofItems items) ≤ levels
  | _, [], _ => Nat.zero_le _
  | _, _ :: _, h => Nat.max_le.mpr ⟨depth_ofValue_le h.1, itemsDepth_ofItems_le h.2⟩

theorem membersDepth_ofMembers_le : ∀ {levels : Nat} {members : List (String × Json)},
    FitsMembers levels members → membersDepth (ofMembers members) ≤ levels
  | _, [], _ => Nat.zero_le _
  | _, _ :: _, h => Nat.max_le.mpr ⟨depth_ofValue_le h.1, membersDepth_ofMembers_le h.2⟩

end

end Written

/-- The text of a value is read as the value with its objects sorted. -/
theorem parse?_text_of_le {levels : Nat} {v : Json} (h : v.Fits levels)
    (hlevels : levels ≤ depthLimit) : parse? v.text = some v.sorted := by
  have hdepth : (Written.ofValue v).depth ≤ depthLimit :=
    (Written.depth_ofValue_le h).trans hlevels
  rw [parse?, Written.parse?_text h, Option.bind_some, Written.value?_ofValue_of_depth_le hdepth]

theorem parse?_text {v : Json} (h : v.Fits depthLimit) : parse? v.text = some v.sorted :=
  parse?_text_of_le h (Nat.le_refl _)

/-! ## What was read -/

theorem fitsItems_iff {levels : Nat} {items : List Json} :
    FitsItems levels items ↔ ∀ v ∈ items, v.Fits levels := by
  induction items with
  | nil => simp [FitsItems]
  | cons v rest ih => simp [FitsItems, ih]

theorem fitsMembers_iff {levels : Nat} {members : List (String × Json)} :
    FitsMembers levels members ↔ ∀ m ∈ members, m.2.Fits levels := by
  induction members with
  | nil => simp [FitsMembers]
  | cons m rest ih => simp [FitsMembers, ih]

/-- A word whose number, if it is one, is one that a text can hold. -/
def Word.Readable : Word → Prop
  | .number (some n) => n.Readable
  | _ => True

theorem readable_of_literal? {spelling : String} {word w : Word} {cs after : List Char}
    (hword : word.Readable) (h : literal? spelling word cs = some (w, after)) : w.Readable := by
  obtain ⟨rest, -, heq⟩ := Option.map_eq_some_iff.mp h
  exact (Prod.mk.inj heq).1 ▸ hword

theorem readable_of_nextWord? {cs after : List Char} {w : Word}
    (h : nextWord? cs = some (w, after)) : w.Readable := by
  unfold nextWord? at h
  split at h
  case h_1 => exact nomatch h
  case h_12 =>
    obtain ⟨⟨n, rest⟩, hn, heq⟩ := Option.map_eq_some_iff.mp h
    obtain ⟨rfl, -⟩ := Prod.mk.inj heq
    cases n with
    | none => trivial
    | some n => exact Number.readable_of_splitNumber? hn
  case h_8 =>
    obtain ⟨r, -, heq⟩ := Option.map_eq_some_iff.mp h
    obtain ⟨rfl, -⟩ := Prod.mk.inj heq
    trivial
  case h_9 => exact readable_of_literal? (show Word.null.Readable from trivial) h
  case h_10 => exact readable_of_literal? (show (Word.bool true).Readable from trivial) h
  case h_11 => exact readable_of_literal? (show (Word.bool false).Readable from trivial) h
  all_goals
    obtain ⟨rfl, -⟩ := Prod.mk.inj (Option.some.inj h)
    trivial

theorem readable_of_words? {cs : List Char} {ws : List Word} (h : words? cs = some ws) :
    ∀ w ∈ ws, w.Readable := by
  fun_induction words? cs generalizing ws with
  | case1 cs hnil =>
    obtain rfl := Option.some.inj h
    exact fun w hw => absurd hw List.not_mem_nil
  | case2 cs c rest hcons hnone => exact nomatch h
  | case3 cs c rest hcons w after hsome ih =>
    obtain ⟨ws', hws', rfl⟩ := Option.map_eq_some_iff.mp h
    exact List.forall_mem_cons.mpr ⟨readable_of_nextWord? hsome, ih hws'⟩

namespace Written

mutual

/-- Every number of a tree is one that a text can hold. -/
def Readable : Written → Prop
  | null => True
  | bool _ => True
  | number (some n) => n.Readable
  | number none => True
  | string _ => True
  | array items => ReadableItems items
  | object members => ReadableMembers members

def ReadableItems : List Written → Prop
  | [] => True
  | v :: rest => v.Readable ∧ ReadableItems rest

def ReadableMembers : List (Option String × Written) → Prop
  | [] => True
  | (_, v) :: rest => v.Readable ∧ ReadableMembers rest

end

theorem readableItems_iff {items : List Written} :
    ReadableItems items ↔ ∀ v ∈ items, v.Readable := by
  induction items with
  | nil => simp [ReadableItems]
  | cons v rest ih => simp [ReadableItems, ih]

theorem readableMembers_iff {members : List (Option String × Written)} :
    ReadableMembers members ↔ ∀ m ∈ members, m.2.Readable := by
  induction members with
  | nil => simp [ReadableMembers]
  | cons m rest ih => simp [ReadableMembers, ih]

def Frame.Readable : Frame → Prop
  | array items => ReadableItems items
  | object members _ => ReadableMembers members

/-- What a state holds of the text so far is readable. -/
def State.Readable : State → Prop
  | value outer => ∀ f ∈ outer, f.Readable
  | firstItem outer => ∀ f ∈ outer, f.Readable
  | firstName outer => ∀ f ∈ outer, f.Readable
  | name members outer => ReadableMembers members ∧ ∀ f ∈ outer, f.Readable
  | colon members _ outer => ReadableMembers members ∧ ∀ f ∈ outer, f.Readable
  | done v outer => v.Readable ∧ ∀ f ∈ outer, f.Readable

theorem readable_startValue {outer : List Frame} (hs : ∀ f ∈ outer, f.Readable) :
    ∀ {w : Word} {s : State}, startValue outer w = some s → w.Readable → s.Readable
  | .openArray, _, rfl, _ => hs
  | .openObject, _, rfl, _ => hs
  | .null, _, rfl, _ => ⟨trivial, hs⟩
  | .bool _, _, rfl, _ => ⟨trivial, hs⟩
  | .number none, _, rfl, _ => ⟨trivial, hs⟩
  | .number (some _), _, rfl, hw => ⟨hw, hs⟩
  | .string _, _, rfl, _ => ⟨trivial, hs⟩

theorem readableItems_reverse {items : List Written} :
    ReadableItems items.reverse ↔ ReadableItems items := by
  simp only [readableItems_iff, List.mem_reverse]

theorem readableMembers_reverse {members : List (Option String × Written)} :
    ReadableMembers members.reverse ↔ ReadableMembers members := by
  simp only [readableMembers_iff, List.mem_reverse]

/-- A step keeps what is held readable. -/
theorem readable_step {s s' : State} {w : Word} (h : step s w = some s') (hw : w.Readable)
    (hs : s.Readable) : s'.Readable := by
  unfold step at h
  split at h
  case h_1 => exact readable_startValue hs h hw
  case h_3 outer _ _ =>
    have hempty : (Frame.array []).Readable := trivial
    exact readable_startValue (List.forall_mem_cons.mpr ⟨hempty, hs⟩) h hw
  case h_12 => exact nomatch h
  all_goals obtain rfl := Option.some.inj h
  case h_2 => exact ⟨trivial, hs⟩
  case h_4 => exact ⟨trivial, hs⟩
  case h_5 => exact ⟨trivial, hs⟩
  case h_6 => exact hs
  case h_7 => exact List.forall_mem_cons.mpr hs
  all_goals
    obtain ⟨hv, hframes⟩ := hs
    obtain ⟨hframe, houter⟩ := List.forall_mem_cons.mp hframes
  case h_8 => exact List.forall_mem_cons.mpr ⟨⟨hv, hframe⟩, houter⟩
  case h_9 => exact ⟨readableItems_reverse.mpr ⟨hv, hframe⟩, houter⟩
  case h_10 => exact ⟨⟨hv, hframe⟩, houter⟩
  case h_11 => exact ⟨readableMembers_reverse.mpr ⟨hv, hframe⟩, houter⟩

theorem readable_of_foldlM : ∀ {ws : List Word} {s s' : State},
    ws.foldlM step s = some s' → (∀ w ∈ ws, w.Readable) → s.Readable → s'.Readable
  | [], s, s', h, _, hs => by
      obtain rfl := Option.some.inj h
      exact hs
  | w :: ws, s, s', h, hw, hs => by
      rw [List.foldlM_cons] at h
      obtain ⟨s1, hstep, hrest⟩ := Option.bind_eq_some_iff.mp h
      exact readable_of_foldlM hrest (fun x hx => hw x (List.mem_cons_of_mem w hx))
        (readable_step hstep (hw w List.mem_cons_self) hs)

theorem readable_of_parse? {text : String} {w : Written} (h : parse? text = some w) :
    w.Readable := by
  obtain ⟨ws, hws, hw⟩ := Option.bind_eq_some_iff.mp h
  unfold ofWords? at hw
  split at hw
  next v hfold =>
    obtain rfl := Option.some.inj hw
    have hstart : (State.value []).Readable := fun f hf => absurd hf List.not_mem_nil
    exact (readable_of_foldlM hfold (readable_of_words? hws) hstart).1
  next => exact nomatch hw

mutual

theorem fits_of_value? : ∀ {levels : Nat} {w : Written} {v : Json},
    value? levels w = some v → w.Readable → v.Fits levels ∧ v.sorted = v
  | _, null, _, h, _ => by
      rw [value?, Option.some.injEq] at h
      exact h ▸ ⟨trivial, rfl⟩
  | _, bool _, _, h, _ => by
      rw [value?, Option.some.injEq] at h
      exact h ▸ ⟨trivial, rfl⟩
  | _, number none, _, h, _ => by
      rw [value?] at h
      exact nomatch h
  | _, number (some _), _, h, hw => by
      rw [value?, Option.map_some, Option.some.injEq] at h
      exact h ▸ ⟨hw, rfl⟩
  | _, string none, _, h, _ => by
      rw [value?] at h
      exact nomatch h
  | _, string (some _), _, h, _ => by
      rw [value?, Option.map_some, Option.some.injEq] at h
      exact h ▸ ⟨trivial, rfl⟩
  | 0, array _, _, h, _ => by
      rw [value?] at h
      exact nomatch h
  | levels + 1, array items, _, h, hw => by
      rw [value?] at h
      obtain ⟨vs, hvs, rfl⟩ := Option.map_eq_some_iff.mp h
      have hall := fits_of_items? hvs hw
      refine ⟨fitsItems_iff.mpr fun v hv => (hall v hv).1, ?_⟩
      rw [sorted, sortedItems_of_forall fun v hv => (hall v hv).2]
  | 0, object _, _, h, _ => by
      rw [value?] at h
      exact nomatch h
  | levels + 1, object members, _, h, hw => by
      rw [value?] at h
      obtain ⟨ms, hms, rfl⟩ := Option.map_eq_some_iff.mp h
      have hall := fun m hm => fits_of_members? hms hw m (Table.mem_of_mem_ofList hm)
      refine ⟨fitsMembers_iff.mpr fun m hm => (hall m hm).1, ?_⟩
      rw [sorted, sortedMembers_of_forall fun m hm => (hall m hm).2, Table.ofList_entries]

theorem fits_of_items? : ∀ {levels : Nat} {items : List Written} {vs : List Json},
    items? levels items = some vs → ReadableItems items → ∀ v ∈ vs, v.Fits levels ∧ v.sorted = v
  | _, [], _, h, _ => by
      rw [items?, Option.some.injEq] at h
      exact h ▸ fun v hv => absurd hv List.not_mem_nil
  | _, w :: rest, _, h, hw => by
      rw [items?] at h
      split at h
      next v vs hv hvs =>
        obtain rfl := Option.some.inj h
        exact List.forall_mem_cons.mpr ⟨fits_of_value? hv hw.1, fits_of_items? hvs hw.2⟩
      next => exact nomatch h

theorem fits_of_members? : ∀ {levels : Nat} {members : List (Option String × Written)}
    {ms : List (String × Json)}, members? levels members = some ms → ReadableMembers members →
      ∀ m ∈ ms, m.2.Fits levels ∧ m.2.sorted = m.2
  | _, [], _, h, _ => by
      rw [members?, Option.some.injEq] at h
      exact h ▸ fun m hm => absurd hm List.not_mem_nil
  | _, (name, w) :: rest, _, h, hw => by
      unfold members? at h
      split at h
      next name v ms hv hms =>
        obtain rfl := Option.some.inj h
        exact List.forall_mem_cons.mpr ⟨fits_of_value? hv hw.1, fits_of_members? hms hw.2⟩
      next => exact nomatch h

end

end Written

/-- A value that was read fits into the limit and has its objects sorted. -/
theorem fits_of_parse? {text : String} {v : Json} (h : parse? text = some v) :
    v.Fits depthLimit ∧ v.sorted = v := by
  obtain ⟨w, hw, hv⟩ := Option.bind_eq_some_iff.mp h
  exact Written.fits_of_value? hv (Written.readable_of_parse? hw)

end Json

end PagePreview
