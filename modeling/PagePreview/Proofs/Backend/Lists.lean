/-
PagePreview.Proofs.Backend.Lists — lists go through a backend as they are.

Of a configuration the lists are the only part that nobody reads before they
are asked for. An entry that is an array is kept with whatever it holds, any
other entry is left out, and neither touches the entry of another name. No
request changes the lists, so the one that asks for a list is answered with
the array that the text of the configuration has, whatever was asked before.

* `Bootstrap.listed?` — what a text has as the list of a name.
* `Session.lists_dispatchAll` — no request changes the lists.
* `Session.dispatch_list` — the answer to a request for a list.
* `Session.list_passes_through` — from the text to the answer.
-/
import PagePreview.Proofs.Backend.Bootstrap
import PagePreview.Proofs.Backend.EffectTable
import PagePreview.Proofs.Backend.Session
import PagePreview.Proofs.Url.Request

namespace PagePreview

open Json (Written)

/-! ## Lists of a configuration -/

namespace Bootstrap

/-- What is written as the list of a name. Of several members of one name the
last counts, for the field as well as for the lists in it. -/
def listed? (w : Written) (name : String) : Option Written :=
  (w.last? "lists").bind (·.last? name)

/-- The entry of a name in a value is what is written last under it. -/
theorem rel_entryAt? {levels : Nat} {w : Written} {v : Json} (h : w.value? levels = some v)
    (field name : String) :
    Option.Rel (fun w v => Written.value? (levels - 1 - 1) w = some v)
      ((w.last? field).bind (·.last? name)) (entryAt? v field name) := by
  have hfield := Written.rel_member? h field
  unfold entryAt?
  generalize w.last? field = x at hfield
  generalize v.member? field = y at hfield
  cases hfield with
  | none => exact .none
  | some hvalue => exact Written.rel_member? hvalue name

theorem get?_lists_ofValue {v : Json} (hsorted : v.sorted = v) (name : String) :
    (ofValue v).1.lists.get? name = (entryAt? v "lists" name).bind items? := by
  have hkeys := (sorted_entriesOf hsorted "lists").1
  cases v with
  | object members =>
    rw [← lookup_entriesOf]
    exact @get?_readEntries _ items? .listDropped _ hkeys name
  | _ => rfl

section Listed

variable {levels : Nat} {w : Written} {v : Json} (h : w.value? levels = some v) {name : String}

include h

/-- An array that is listed is kept. -/
theorem exists_items_of_listed? {items : List Written}
    (hlisted : listed? w name = some (.array items)) :
    ∃ vs, (entryAt? v "lists" name).bind items? = some vs ∧
      (Written.array items).wholeValue? = some (.array vs) := by
  have hentry := rel_entryAt? h "lists" name
  rw [← listed?, hlisted] at hentry
  generalize entryAt? v "lists" name = x at hentry ⊢
  cases hentry with
  | some hvalue =>
    obtain ⟨_, _, vs, _, _, rfl, _⟩ | ⟨_, _, _, _, heq, _⟩ | ⟨hw, -⟩ := Written.value?_forms hvalue
    · exact ⟨vs, rfl, Written.wholeValue?_of_value? hvalue⟩
    · exact nomatch heq
    · exact absurd rfl (hw items)

/-- Nothing else is. -/
theorem bind_items?_of_listed? (hlisted : ∀ items, listed? w name ≠ some (.array items)) :
    (entryAt? v "lists" name).bind items? = none := by
  have hentry := rel_entryAt? h "lists" name
  rw [← listed?] at hentry
  generalize listed? w name = x at hentry hlisted
  generalize entryAt? v "lists" name = y at hentry
  cases hentry with
  | none => rfl
  | some hvalue =>
    obtain ⟨_, items, _, _, rfl, _⟩ | ⟨_, _, _, _, _, rfl, _⟩ | ⟨-, -, hv, -⟩ :=
      Written.value?_forms hvalue
    · exact absurd rfl (hlisted items)
    · rfl
    · rw [Option.bind_some]
      unfold items?
      split
      next vs => exact absurd rfl (hv vs)
      next => rfl

end Listed

end Bootstrap

/-! ## Requests for a list -/

/-- The request for a list, as it arrives. -/
theorem Request.ofUrl_list (name : String) :
    ofUrl "GET" ("/api/list?name=" ++ Percent.encode name) =
      ⟨"GET", "/api/list", [("name", name)]⟩ := by
  have hencode : Percent.encode "name" = "name" := by decide
  have hurl : ("/api/list?name=" ++ Percent.encode name).toList =
      "/api/list".toList ++ '?' :: Query.text [("name", name)] := by
    simp [Query.text, Query.pairText, List.intercalate, hencode]
  rw [ofUrl_query hurl (by decide) (by decide)
    (Query.notMem_text (by decide) (by decide) (by decide) (by decide) _), Query.parse_text]
  rfl

namespace Session

theorem lists_dispatch (s : Session) (r : Request) : (s.dispatch r).state.lists = s.lists := by
  unfold dispatch
  split_ifs
  · rcases s.serve_forms r with ⟨-, key, val, h⟩ | ⟨-, event, arg, h⟩ | ⟨response, h, -⟩ <;>
      rw [h] <;> rfl
  · rfl

theorem lists_dispatchAll (rs : List Request) (s : Session) :
    (s.dispatchAll rs).state.lists = s.lists := by
  induction rs generalizing s with
  | nil => rfl
  | cons r rs ih => exact (ih (s.dispatch r).state).trans (s.lists_dispatch r)

/-- A request for a list is answered with the list. -/
theorem dispatch_list (s : Session) {name : String} (hname : name ≠ "") :
    s.dispatch (.ofUrl "GET" ("/api/list?name=" ++ Percent.encode name)) =
      ⟨some ⟨.json (s.list name).text, false⟩, s, [.dispatched "GET" "/api/list"]⟩ := by
  rw [Request.ofUrl_list]
  have hapi : (Request.mk "GET" "/api/list" [("name", name)]).isApi := by
    show Request.apiStart.toList.isPrefixOf "/api/list".toList = true
    decide
  rw [dispatch_of_isApi s hapi, serve, if_neg (by simp), if_neg (by simp), if_neg (by simp),
    if_pos ⟨rfl, rfl⟩, nonEmptyParam?_eq rfl hname]
  rfl

/-- The list of a backend is read from its text. -/
theorem parse?_text_list {s : Session} (h : ∀ e ∈ s.lists.entries,
    (Json.array e.2).Fits Bootstrap.entryLevels ∧ (Json.array e.2).sorted = .array e.2)
    (name : String) : Json.parse? (s.list name).text = some (s.list name) := by
  have hlist : (s.list name).Fits Bootstrap.entryLevels ∧ (s.list name).sorted = s.list name := by
    unfold list
    cases hlookup : s.lists.get? name with
    | none => exact ⟨trivial, rfl⟩
    | some items => exact h _ ((mem_iff_lookup (nodup_of_sorted s.lists.sorted)).mpr hlookup)
  have hlevels : Bootstrap.entryLevels ≤ Json.depthLimit := by decide
  rw [Json.parse?_text_of_le hlist.1 hlevels, hlist.2]

/-- Of every text that is read as a configuration, a request for a list has
an answer that is read as the array that the text has under the name, and as
the empty array if the text has none there or something else. It does not
matter which requests came before. -/
theorem list_passes_through {text : String} {b : Bootstrap} {log : List LogRecord}
    (h : Bootstrap.parse? text = some (b, log)) :
    ∃ w, Written.parse? text = some w ∧
      ∀ (rs : List Request) (name : String), name ≠ "" →
        ∃ v,
          (((ofBootstrap b).dispatchAll rs).state.dispatch
              (.ofUrl "GET" ("/api/list?name=" ++ Percent.encode name))).result =
            some ⟨⟨200, "application/json", v.text⟩, false⟩ ∧
          Json.parse? v.text = some v ∧
          (∀ items, Bootstrap.listed? w name = some (.array items) →
            (Written.array items).wholeValue? = some v) ∧
          ((∀ items, Bootstrap.listed? w name ≠ some (.array items)) → v = .array []) := by
  obtain ⟨v, hv, hread⟩ := Option.map_eq_some_iff.mp h
  obtain ⟨w, hw, hvalue⟩ := Option.bind_eq_some_iff.mp hv
  obtain ⟨hfits, hsorted⟩ := Json.fits_of_parse? hv
  have hnormal := Bootstrap.normal_of_ofValue hfits hsorted
  have hlists := Bootstrap.get?_lists_ofValue hsorted
  rw [hread] at hnormal hlists
  refine ⟨w, hw, fun rs name hname => ?_⟩
  have hkept : ((ofBootstrap b).dispatchAll rs).state.lists = b.lists :=
    lists_dispatchAll rs (ofBootstrap b)
  refine ⟨((ofBootstrap b).dispatchAll rs).state.list name, ?_, ?_, ?_, ?_⟩
  · rw [dispatch_list _ hname]
    rfl
  · exact parse?_text_list (hkept ▸ hnormal.lists) name
  · intro items hlisted
    obtain ⟨vs, hvs, hwhole⟩ := Bootstrap.exists_items_of_listed? hvalue hlisted
    rw [list, hkept, hlists name, hvs]
    exact hwhole
  · intro hlisted
    rw [list, hkept, hlists name, Bootstrap.bind_items?_of_listed? hvalue hlisted]
    rfl

/-- A text with two fields of lists, of which the last has two lists of one
name and an entry that is no list. -/
def listsTwice : String :=
  "\x7b\"lists\":\x7b\"a\":[1]\x7d,\"lists\":\x7b\"a\":2,\"b\":3,\"a\":[[],\"é\"]\x7d\x7d"

theorem list_passes_through_listsTwice :
    Bootstrap.parse? listsTwice =
        some ({ Bootstrap.empty with lists := Table.ofList [("a", [.array [], .string "é"])] },
          [.listDropped "b"]) ∧
      (((ofBootstrap { Bootstrap.empty with
          lists := Table.ofList [("a", [.array [], .string "é"])] }).dispatchAll
          mixedRequests).state.dispatch
          (.ofUrl "GET" ("/api/list?name=" ++ Percent.encode "a"))).result =
        some ⟨⟨200, "application/json", "[[],\"é\"]"⟩, false⟩ ∧
      Json.parse? "[[],\"é\"]" = some (.array [.array [], .string "é"]) := by
  have hwords : Json.words? listsTwice.toList =
      some [.openObject, .string (some "lists"), .colon, .openObject, .string (some "a"), .colon,
        .openArray, .number (some (.integer 1)), .closeArray, .closeObject, .comma,
        .string (some "lists"), .colon, .openObject, .string (some "a"), .colon,
        .number (some (.integer 2)), .comma, .string (some "b"), .colon,
        .number (some (.integer 3)), .comma, .string (some "a"), .colon, .openArray, .openArray,
        .closeArray, .comma, .string (some "é"), .closeArray, .closeObject, .closeObject] := by
    decide +kernel
  have hread : Bootstrap.parse? listsTwice =
      some ({ Bootstrap.empty with lists := Table.ofList [("a", [.array [], .string "é"])] },
        [.listDropped "b"]) := by
    rw [Bootstrap.parse?, Json.parse?, Written.parse?, hwords]
    rfl
  obtain ⟨w, hw, hanswer⟩ := list_passes_through hread
  obtain ⟨v, hresult, hbody, hlist, -⟩ := hanswer mixedRequests "a" (by decide)
  rw [Written.parse?, hwords] at hw
  obtain rfl := Option.some.inj hw
  obtain rfl := Option.some.inj (hlist [.array [], .string (some "é")] rfl)
  exact ⟨hread, hresult, hbody⟩

end Session

end PagePreview
