/-
PagePreview.Proofs.Backend.Description — which values describe effects.

An entry of a table of effects goes through two readers. The first looks at
its structure and builds nothing, the second builds effects from the record.
What an object describes is said here a third time, from its members alone.
All three agree on every value whose objects are sorted: an entry is kept
exactly if it describes effects, and these are the effects that are kept. So
the second reader never fails where the first has passed.

* `Effect.DescribedBy`, `EffectSet.DescribedBy` — what a value describes.
* `Bootstrap.isEffect_iff`, `Bootstrap.isEffectEntry_iff` — the structure is
  that of a description.
* `Effect.ofWritten?_of_describedBy`, `EffectSet.ofWritten?_of_describedBy` —
  a description is read.
* `Bootstrap.entry?_eq_some_iff` — an entry is kept if it describes effects.
-/
import PagePreview.Backend.Bootstrap
import PagePreview.Proofs.Json.Members

namespace PagePreview

theorem exists_of_mem_forall₂ {α β : Type} {R : α → β → Prop} {xs : List α} {ys : List β}
    (h : List.Forall₂ R xs ys) {y : β} (hy : y ∈ ys) : ∃ x ∈ xs, R x y := by
  induction h with
  | nil => exact absurd hy List.not_mem_nil
  | cons hxy _ ih =>
    rcases List.mem_cons.mp hy with rfl | hy
    · exact ⟨_, List.mem_cons_self, hxy⟩
    · obtain ⟨x, hx, hxy⟩ := ih hy
      exact ⟨x, List.mem_cons_of_mem _ hx, hxy⟩

/-! ## Descriptions -/

/-- What an object with a kind, a key, and what the kind needs describes.
Other members of the object do not matter. -/
inductive Effect.DescribedBy (v : Json) : Effect → Prop
  | set {key : String} {val : Json} (hkind : v.member? "type" = some (.string "set"))
      (hkey : v.member? "key" = some (.string key)) (hval : v.member? "val" = some val) :
      DescribedBy v (.set key val)
  | setTemplate {key template : String}
      (hkind : v.member? "type" = some (.string "setTemplate"))
      (hkey : v.member? "key" = some (.string key))
      (htemplate : v.member? "template" = some (.string template)) :
      DescribedBy v (.setTemplate key template)
  | inc {key : String} {amount : Json.Number} (hkind : v.member? "type" = some (.string "inc"))
      (hkey : v.member? "key" = some (.string key))
      (hby : v.member? "by" = some (.number amount)) :
      DescribedBy v (.inc key (some amount.toDouble))
  | incByOne {key : String} (hkind : v.member? "type" = some (.string "inc"))
      (hkey : v.member? "key" = some (.string key)) (hby : v.member? "by" = none) :
      DescribedBy v (.inc key none)
  | toggle {key : String} (hkind : v.member? "type" = some (.string "toggle"))
      (hkey : v.member? "key" = some (.string key)) :
      DescribedBy v (.toggle key)

/-- What an entry of a table describes: one effect, or those of an array in
its order. -/
inductive EffectSet.DescribedBy : Json → EffectSet → Prop
  | one {v : Json} {e : Effect} (h : e.DescribedBy v) : DescribedBy v (.one e)
  | many {items : List Json} {es : List Effect}
      (h : List.Forall₂ Effect.DescribedBy items es) : DescribedBy (.array items) (.many es)

theorem Effect.DescribedBy.exists_object {v : Json} {e : Effect} (h : e.DescribedBy v) :
    ∃ members, v = .object members := by
  obtain ⟨key, hkey⟩ : ∃ key, v.member? "key" = some key := by
    cases h <;> exact ⟨_, ‹v.member? "key" = _›⟩
  obtain ⟨members, rfl, -⟩ := Json.exists_object_of_member? hkey
  exact ⟨members, rfl⟩

theorem Effect.DescribedBy.ne_unrecognized {v : Json} {e : Effect} (h : e.DescribedBy v) :
    e ≠ .unrecognized := by
  cases h <;> simp

theorem EffectSet.DescribedBy.unrecognized_notMem {v : Json} {es : EffectSet}
    (h : es.DescribedBy v) : .unrecognized ∉ es.effects := by
  intro hmem
  cases h with
  | one h => exact h.ne_unrecognized (List.mem_singleton.mp hmem).symm
  | many h =>
    obtain ⟨v, -, hv⟩ := exists_of_mem_forall₂ h hmem
    exact hv.ne_unrecognized rfl

/-! ## The structure of a description -/

namespace Json

theorem text?_eq_some_iff {v : Json} {s : String} : v.text? = some s ↔ v = .string s := by
  cases v <;> simp [text?]

theorem bind_text?_eq_some_iff {v : Option Json} {s : String} :
    v.bind (·.text?) = some s ↔ v = some (.string s) := by
  simp [Option.bind_eq_some_iff, text?_eq_some_iff]

theorem isSome_bind_text? {v : Option Json} :
    (v.bind (·.text?)).isSome ↔ ∃ s, v = some (.string s) := by
  simp [Option.isSome_iff_exists, bind_text?_eq_some_iff]

end Json

namespace Bootstrap

/-- What passes the structural check is a description of an effect. -/
theorem exists_describedBy_of_isEffect {v : Json} (h : isEffect v) :
    ∃ e : Effect, e.DescribedBy v := by
  unfold isEffect at h
  obtain ⟨hkey, hkind⟩ := Bool.and_eq_true_iff.mp h
  obtain ⟨key, hkey⟩ := Json.isSome_bind_text?.mp hkey
  split at hkind
  next htype =>
    obtain ⟨val, hval⟩ := Option.isSome_iff_exists.mp hkind
    exact ⟨_, .set (Json.bind_text?_eq_some_iff.mp htype) hkey hval⟩
  next htype =>
    obtain ⟨template, htemplate⟩ := Json.isSome_bind_text?.mp hkind
    exact ⟨_, .setTemplate (Json.bind_text?_eq_some_iff.mp htype) hkey htemplate⟩
  next htype =>
    have hinc := Json.bind_text?_eq_some_iff.mp htype
    cases hby : v.member? "by" with
    | none => exact ⟨_, .incByOne hinc hkey hby⟩
    | some amount =>
      rw [hby] at hkind
      cases amount with
      | number n => exact ⟨_, .inc hinc hkey hby⟩
      | _ => exact nomatch hkind
  next htype => exact ⟨_, .toggle (Json.bind_text?_eq_some_iff.mp htype) hkey⟩
  next => exact nomatch hkind

theorem isEffect_of_describedBy {v : Json} {e : Effect} (h : e.DescribedBy v) : isEffect v := by
  cases h with
  | set hkind hkey hval => simp [isEffect, hkind, hkey, hval, Json.text?]
  | setTemplate hkind hkey htemplate => simp [isEffect, hkind, hkey, htemplate, Json.text?]
  | inc hkind hkey hby => simp [isEffect, hkind, hkey, hby, Json.text?, Json.number?]
  | incByOne hkind hkey hby => simp [isEffect, hkind, hkey, hby, Json.text?]
  | toggle hkind hkey => simp [isEffect, hkind, hkey, Json.text?]

/-- The structure is that of a description. -/
theorem isEffect_iff {v : Json} : isEffect v ↔ ∃ e : Effect, e.DescribedBy v :=
  ⟨exists_describedBy_of_isEffect, fun ⟨_, h⟩ => isEffect_of_describedBy h⟩

theorem exists_forall₂_of_forall {items : List Json} (h : ∀ v ∈ items, isEffect v) :
    ∃ es, List.Forall₂ Effect.DescribedBy items es := by
  induction items with
  | nil => exact ⟨[], .nil⟩
  | cons v rest ih =>
    obtain ⟨hv, hrest⟩ := List.forall_mem_cons.mp h
    obtain ⟨e, he⟩ := isEffect_iff.mp hv
    obtain ⟨es, hes⟩ := ih hrest
    exact ⟨e :: es, .cons he hes⟩

theorem isEffectEntry_iff {v : Json} : isEffectEntry v ↔ ∃ es : EffectSet, es.DescribedBy v := by
  constructor
  · intro h
    unfold isEffectEntry at h
    split at h
    next items =>
      obtain ⟨es, hes⟩ := exists_forall₂_of_forall (List.all_eq_true.mp h)
      exact ⟨_, .many hes⟩
    next =>
      obtain ⟨e, he⟩ := isEffect_iff.mp h
      exact ⟨_, .one he⟩
  · rintro ⟨es, h⟩
    cases h with
    | one h =>
      have heffect := isEffect_of_describedBy h
      obtain ⟨members, rfl⟩ := h.exists_object
      exact heffect
    | many h =>
      refine List.all_eq_true.mpr fun v hv => ?_
      obtain ⟨e, -, he⟩ := exists_of_mem_forall₂ h.flip hv
      exact isEffect_of_describedBy he

end Bootstrap

/-! ## Reading a description -/

namespace Effect

open Json (Written)

/-- An object is read as a record of the kind that it gives. -/
theorem ofWritten?_object {members : List (String × Json)} (hnames : (members.map (·.1)).Nodup)
    {kind : String} (hkind : members.lookup "type" = some (.string kind)) :
    ofWritten? (.ofValue (.object members)) =
      ofFields? (.object (Written.ofMembers (members.filter (·.1 ≠ "type"))))
        (EffectKind.ofName kind) := by
  have htype : (Written.ofMembers members).filter (·.1 == some "type") =
      [(some "type", .string (some kind))] := by
    have hone := filter_eq_of_lookup hnames hkind
    rw [Written.ofMembers_eq, List.filter_map]
    exact congrArg (List.map fun m => (some m.1, Written.ofValue m.2)) hone
  have hrest : (Written.ofMembers members).filter (·.1 != some "type") =
      Written.ofMembers (members.filter (·.1 ≠ "type")) := by
    rw [Written.ofMembers_eq, Written.ofMembers_eq, List.filter_map]
    refine congrArg _ (List.filter_congr fun m _ => ?_)
    by_cases hname : m.1 = "type" <;> simp [hname]
  rw [Written.ofValue, ofWritten?]
  simp only [htype, hrest, EffectKind.ofWritten?, Option.map_some, Option.bind_some]

/-- The other fields of a record with a kind are members of the object. -/
theorem exists_fields {members : List (String × Json)} (hnames : (members.map (·.1)).Nodup)
    (names : List String) (htype : "type" ∉ names) :
    ∃ fields, Written.record? names
        (.object (Written.ofMembers (members.filter (·.1 ≠ "type")))) = some fields ∧
      ∀ name ∈ names, fields.lookup name = (members.lookup name).map .ofValue := by
  have hrest : ((members.filter (·.1 ≠ "type")).map (·.1)).Nodup :=
    (List.filter_sublist.map _).nodup hnames
  obtain ⟨fields, hfields, hlookup⟩ := Written.exists_record hrest names
  refine ⟨fields, hfields, fun name hname => ?_⟩
  have hne : name ≠ "type" := fun heq => htype (heq ▸ hname)
  rw [hlookup name hname, lookup_filter (· ≠ "type"), if_pos (by simpa using hne)]

theorem text_of_lookup {fields : List (String × Written)} {members : List (String × Json)}
    {name s : String} (h : fields.lookup name = (members.lookup name).map .ofValue)
    (hs : members.lookup name = some (.string s)) :
    (fields.lookup name).bind (·.text?) = some s := by
  rw [h, hs]
  rfl

/-- A description is read as what it describes. -/
theorem ofWritten?_of_describedBy {v : Json} (hsorted : v.sorted = v) {e : Effect}
    (h : e.DescribedBy v) : ofWritten? (.ofValue v) = some e := by
  obtain ⟨members, rfl⟩ := h.exists_object
  obtain ⟨hkeys, hvalues⟩ := Json.sorted_of_mem_object hsorted
  have hnames := nodup_of_sorted hkeys
  cases h with
  | @set key val hkind hkey hval =>
    obtain ⟨fields, hfields, hlookup⟩ := exists_fields hnames ["key", "val"] (by decide)
    have hkeyText := text_of_lookup (hlookup "key" (by simp)) hkey
    have hvalue : (fields.lookup "val").bind (·.wholeValue?) = some val := by
      have hval : members.lookup "val" = some val := hval
      rw [hlookup "val" (by simp), hval, Option.map_some, Option.bind_some,
        Written.wholeValue?_ofValue, hvalues _ ((mem_iff_lookup hnames).mpr hval)]
    rw [ofWritten?_object hnames hkind, show EffectKind.ofName "set" = .set by decide]
    simp only [ofFields?, hfields, hkeyText, hvalue, Option.bind_eq_bind, Option.bind_some]
  | setTemplate hkind hkey htemplate =>
    obtain ⟨fields, hfields, hlookup⟩ := exists_fields hnames ["key", "template"] (by decide)
    have hkeyText := text_of_lookup (hlookup "key" (by simp)) hkey
    have htemplateText := text_of_lookup (hlookup "template" (by simp)) htemplate
    rw [ofWritten?_object hnames hkind,
      show EffectKind.ofName "setTemplate" = .setTemplate by decide]
    simp only [ofFields?, hfields, hkeyText, htemplateText, Option.bind_eq_bind, Option.bind_some]
  | @inc key amount hkind hkey hby =>
    obtain ⟨fields, hfields, hlookup⟩ := exists_fields hnames ["key", "by"] (by decide)
    have hkeyText := text_of_lookup (hlookup "key" (by simp)) hkey
    have hamount : optionalNumber? (fields.lookup "by") = some (some amount.toDouble) := by
      rw [hlookup "by" (by simp), show members.lookup "by" = some (.number amount) from hby]
      rfl
    rw [ofWritten?_object hnames hkind, show EffectKind.ofName "inc" = .inc by decide]
    simp only [ofFields?, hfields, hkeyText, hamount, Option.bind_eq_bind, Option.bind_some]
  | incByOne hkind hkey hby =>
    obtain ⟨fields, hfields, hlookup⟩ := exists_fields hnames ["key", "by"] (by decide)
    have hkeyText := text_of_lookup (hlookup "key" (by simp)) hkey
    have hamount : optionalNumber? (fields.lookup "by") = some none := by
      rw [hlookup "by" (by simp), show members.lookup "by" = none from hby]
      rfl
    rw [ofWritten?_object hnames hkind, show EffectKind.ofName "inc" = .inc by decide]
    simp only [ofFields?, hfields, hkeyText, hamount, Option.bind_eq_bind, Option.bind_some]
  | toggle hkind hkey =>
    obtain ⟨fields, hfields, hlookup⟩ := exists_fields hnames ["key"] (by decide)
    have hkeyText := text_of_lookup (hlookup "key" (by simp)) hkey
    rw [ofWritten?_object hnames hkind, show EffectKind.ofName "toggle" = .toggle by decide]
    simp only [ofFields?, hfields, hkeyText, Option.bind_eq_bind, Option.bind_some]

end Effect

namespace EffectSet

open Json (Written)

theorem ofWritten?_object (members : List (String × Json)) :
    ofWritten? (.ofValue (.object members)) =
      (Effect.ofWritten? (.ofValue (.object members))).map one := by
  rw [Written.ofValue]
  unfold ofWritten?
  cases Effect.ofWritten? (.object (Written.ofMembers members)) <;> rfl

/-- An array of effects is not taken for a single effect that is written as
an array of its fields. -/
theorem ofWritten?_array {items : List Json} (h : ∀ v ∈ items, ∃ e : Effect, e.DescribedBy v) :
    ofWritten? (.ofValue (.array items)) =
      ((Written.ofItems items).mapM Effect.ofWritten?).map many := by
  have hnone : Effect.ofWritten? (.array (Written.ofItems items)) = none := by
    cases items with
    | nil => rfl
    | cons v rest =>
      obtain ⟨e, he⟩ := h v List.mem_cons_self
      obtain ⟨members, rfl⟩ := he.exists_object
      rfl
  rw [Written.ofValue]
  unfold ofWritten?
  rw [hnone]

/-- The description of an entry is read as what it describes. -/
theorem ofWritten?_of_describedBy {v : Json} (hsorted : v.sorted = v) {es : EffectSet}
    (h : es.DescribedBy v) : ofWritten? (.ofValue v) = some es := by
  cases h with
  | one h =>
    have hread := Effect.ofWritten?_of_describedBy hsorted h
    obtain ⟨members, rfl⟩ := h.exists_object
    rw [ofWritten?_object, hread, Option.map_some]
  | @many items es h =>
    have hread : List.Forall₂ (fun v e => Effect.ofWritten? (.ofValue v) = some e) items es := by
      refine List.forall₂_iff_zip.mpr ⟨h.length_eq, fun {v e} hmem => ?_⟩
      have hv := Json.sorted_of_mem_array hsorted v (List.of_mem_zip hmem).1
      exact Effect.ofWritten?_of_describedBy hv (List.forall₂_iff_zip.mp h |>.2 hmem)
    have hall : ∀ v ∈ items, ∃ e : Effect, e.DescribedBy v := by
      intro v hv
      obtain ⟨e, -, he⟩ := exists_of_mem_forall₂ h.flip hv
      exact ⟨e, he⟩
    rw [ofWritten?_array hall, Written.ofItems_eq,
      mapM_eq_some_iff.mpr (List.forall₂_map_left_iff.mpr hread), Option.map_some]

end EffectSet

/-! ## Entries of a table -/

namespace Bootstrap

/-- An entry is kept exactly if it describes effects, as what it describes. -/
theorem entry?_eq_some_iff {v : Json} (hsorted : v.sorted = v) {es : EffectSet} :
    entry? v = some es ↔ es.DescribedBy v := by
  unfold entry?
  constructor
  · intro h
    split_ifs at h with hentry
    obtain ⟨es', hes'⟩ := isEffectEntry_iff.mp hentry
    rw [EffectSet.ofWritten?_of_describedBy hsorted hes'] at h
    exact Option.some.inj h ▸ hes'
  · intro h
    rw [if_pos (isEffectEntry_iff.mpr ⟨es, h⟩), EffectSet.ofWritten?_of_describedBy hsorted h]

theorem entry?_eq_none_iff {v : Json} (hsorted : v.sorted = v) :
    entry? v = none ↔ ¬∃ es : EffectSet, es.DescribedBy v := by
  simp only [← entry?_eq_some_iff hsorted, Option.eq_none_iff_forall_ne_some, not_exists]

end Bootstrap

end PagePreview
