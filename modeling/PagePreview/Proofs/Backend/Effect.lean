/-
PagePreview.Proofs.Backend.Effect — effects that are read, written and read
again.

What is read from a value that passes the structural check is one of the
four effects that do something, with parts of the value in it. Such an
effect is written as an object that describes it, with its members in the
order of their names.

* `Effect.Normal` — what an effect is like that was read.
* `Effect.normal_of_describedBy` — an effect that was read.
* `Effect.describedBy_sortedMembers` — an effect that is written.
* `EffectSet.normal_of_entry?`, `EffectSet.entry?_sorted` — the same for
  the entries of a table of effects.
-/
import PagePreview.Proofs.Backend.Description

namespace PagePreview

namespace Json

theorem Number.isFinite_toDouble : ∀ {n : Number}, n.Readable → n.toDouble.isFinite
  | integer n, ⟨hleast, hgreatest⟩ => by
      have hpow : (Nat.pow 2 63 : Int) = 2 ^ 63 ∧ (Nat.pow 2 64 : Int) = 2 ^ 64 := by decide
      exact Double.isFinite_ofInt (by omega)
  | double _, h => h

theorem fits_of_member? {levels : Nat} {v w : Json} (hfits : v.Fits (levels + 1)) {name : String}
    (h : v.member? name = some w) : w.Fits levels := by
  obtain ⟨members, rfl, hlookup⟩ := exists_object_of_member? h
  obtain ⟨before, after, rfl, -⟩ := List.lookup_eq_some_iff.mp hlookup
  exact fitsMembers_iff.mp hfits (name, w) (List.mem_append_right _ List.mem_cons_self)

end Json

namespace Effect

/-! ## Effects that were read -/

/-- An effect that does something, and that has its objects sorted. -/
def Normal : Effect → Prop
  | set _ val => val.sorted = val
  | unrecognized => False
  | _ => True

/-- An effect that was read is made of parts of the value. -/
theorem normal_of_describedBy {levels : Nat} {v : Json} (hfits : v.Fits levels)
    (hsorted : v.sorted = v) {e : Effect} (h : e.DescribedBy v) :
    e.Normal ∧ e.toJson.Fits levels := by
  cases levels with
  | zero =>
    obtain ⟨members, rfl⟩ := h.exists_object
    exact hfits.elim
  | succ levels =>
    cases h with
    | set _ _ hval =>
      have hvalfits := Json.fits_of_member? hfits hval
      exact ⟨Json.sorted_of_member? hsorted hval, trivial, trivial, hvalfits, trivial⟩
    | setTemplate _ _ _ => exact ⟨trivial, trivial, trivial, trivial, trivial⟩
    | inc _ _ hby =>
      have hfinite := Json.Number.isFinite_toDouble (Json.fits_of_member? hfits hby)
      exact ⟨trivial, trivial, trivial, hfinite, trivial⟩
    | incByOne _ _ _ => exact ⟨trivial, trivial, trivial, trivial⟩
    | toggle _ _ => exact ⟨trivial, trivial, trivial, trivial⟩

/-! ## Effects that are written -/

/-- The members of an effect, in the order of their names. -/
def sortedMembers : Effect → List (String × Json)
  | set key val => [("key", .string key), ("type", .string "set"), ("val", val)]
  | setTemplate key template =>
    [("key", .string key), ("template", .string template), ("type", .string "setTemplate")]
  | inc key (some x) => [("by", .number (.double x)), ("key", .string key), ("type", .string "inc")]
  | inc key none => [("key", .string key), ("type", .string "inc")]
  | toggle key => [("key", .string key), ("type", .string "toggle")]
  | unrecognized => [("type", .string "unrecognized")]

theorem sorted_toJson {e : Effect} (h : e.Normal) :
    e.toJson.sorted = .object e.sortedMembers := by
  -- The members are put in order one by one, by their names alone.
  have hsorted : e.toJson.sorted = .object ((Json.sortedMembers
      (("type", .string e.kind.name) :: e.members)).foldl
        (fun es m => insertEntry m.1 m.2 es) []) := by
    rw [toJson, Json.sorted, Table.entries_ofList_eq_foldl]
  rw [hsorted]
  cases e with
  | set key val =>
    have hval : val.sorted = val := h
    simp only [members, Json.sortedMembers, Json.sorted, hval, List.foldl_cons, List.foldl_nil]
    rfl
  | inc key amount =>
    cases amount <;>
      simp only [members, Json.sortedMembers, Json.sorted, List.foldl_cons, List.foldl_nil] <;> rfl
  | unrecognized => exact h.elim
  | _ =>
    simp only [members, Json.sortedMembers, Json.sorted, List.foldl_cons, List.foldl_nil]
    rfl

/-- An effect is written as an object that describes it. -/
theorem describedBy_sortedMembers : ∀ {e : Effect}, e.Normal →
    e.DescribedBy (.object e.sortedMembers)
  | set .., _ => .set rfl rfl rfl
  | setTemplate .., _ => .setTemplate rfl rfl rfl
  | inc key (some x), _ => @DescribedBy.inc _ key (.double x) rfl rfl rfl
  | inc _ none, _ => .incByOne rfl rfl rfl
  | toggle _, _ => .toggle rfl rfl

end Effect

namespace EffectSet

/-! ## Entries of a table of effects -/

def Normal (es : EffectSet) : Prop :=
  ∀ e ∈ es.effects, e.Normal

/-- An entry that was read. -/
theorem normal_of_entry? {levels : Nat} {v : Json} (hfits : v.Fits levels)
    (hsorted : v.sorted = v) {es : EffectSet} (h : Bootstrap.entry? v = some es) :
    es.Normal ∧ es.toJson.Fits levels := by
  have hdescribed := (Bootstrap.entry?_eq_some_iff hsorted).mp h
  cases hdescribed with
  | one he =>
    obtain ⟨hnormal, hjson⟩ := Effect.normal_of_describedBy hfits hsorted he
    exact ⟨List.forall_mem_singleton.mpr hnormal, hjson⟩
  | @many items effects hes =>
    cases levels with
    | zero => exact hfits.elim
    | succ levels =>
      have hnormal : ∀ e ∈ effects, e.Normal ∧ e.toJson.Fits levels := by
        intro e he
        obtain ⟨v, hv, hve⟩ := exists_of_mem_forall₂ hes he
        exact Effect.normal_of_describedBy (Json.fitsItems_iff.mp hfits v hv)
          (Json.sorted_of_mem_array hsorted v hv) hve
      refine ⟨fun e he => (hnormal e he).1, Json.fitsItems_iff.mpr fun v hv => ?_⟩
      obtain ⟨e, he, rfl⟩ := List.mem_map.mp hv
      exact (hnormal e he).2

/-- An entry that is written is read. -/
theorem entry?_sorted {es : EffectSet} (h : es.Normal) :
    Bootstrap.entry? es.toJson.sorted = some es := by
  refine (Bootstrap.entry?_eq_some_iff (Json.sorted_sorted _)).mpr ?_
  cases es with
  | one e =>
    have he : e.Normal := h e List.mem_cons_self
    rw [toJson, Effect.sorted_toJson he]
    exact .one (Effect.describedBy_sortedMembers he)
  | many effects =>
    have hsorted : (many effects).toJson.sorted =
        .array (effects.map fun e => .object e.sortedMembers) := by
      rw [toJson, Json.sorted, Json.sortedItems_eq, List.map_map]
      exact congrArg Json.array (List.map_congr_left fun e he => Effect.sorted_toJson (h e he))
    rw [hsorted]
    refine .many (List.forall₂_map_left_iff.mpr (List.forall₂_same.mpr fun e he => ?_))
    exact Effect.describedBy_sortedMembers (h e he)

end EffectSet

end PagePreview
