/-
PagePreview.Proofs.Url.Address — a URL that is put together from its parts,
and the parts that are read of it.

A URL is an address, which a query and a fragment may follow. An address is
a path alone, or a scheme and an authority with or without a path. The query
is always read as it was put in, and so is the path of an address with a
scheme.

A path alone is read as it was put in exactly if it does not hold `://`.
Otherwise the text in front of these characters is taken for a scheme and
what follows them for an authority, and only what is left behind is read as
the path. For a request this makes a difference: `/go/http://h/api/data` is
read as `/api/data`.

* `Url`, `Url.written` — the parts of a URL, and the URL itself.
* `Request.afterScheme?_eq_none_iff`, `Request.afterScheme?_append` — where
  a scheme is seen.
* `Request.pathOf_text_iff` — which addresses have their path read.
* `Request.ofUrl_written` — the request of a URL.
* `Request.ofUrl_ofPairs` — the request of a URL whose query is written from
  pairs.
-/
import PagePreview.Proofs.Url.Request

namespace PagePreview

/-! ## The parts of a URL -/

namespace Url

def isSchemeChar (c : Char) : Bool :=
  c.isAlphanum || "+-.".toList.contains c

/-- A path starts with a slash, and neither a query nor a fragment begins in
it. -/
structure Path where
  text : List Char
  slash : text.head? = some '/'
  question : '?' ∉ text
  hash : '#' ∉ text

/-- The scheme and the authority of an absolute URL. -/
structure Origin where
  scheme : List Char
  authority : List Char
  isScheme : ∀ c ∈ scheme, isSchemeChar c = true
  isAuthority : ∀ c ∈ authority, c ≠ '/' ∧ c ≠ '?' ∧ c ≠ '#'

/-- What stands between a scheme and an authority. -/
def schemeEnd : List Char := "://".toList

/-- A URL without its query and its fragment. -/
inductive Address
  | relative (path : Path)
  | absolute (origin : Origin) (path : Option Path)

namespace Address

def text : Address → List Char
  | relative path => path.text
  | absolute origin path =>
    origin.scheme ++ schemeEnd ++ origin.authority ++ (path.map (·.text)).getD []

/-- The path that is meant. An absolute address without a path means the
root. -/
def path : Address → List Char
  | relative path => path.text
  | absolute _ path => (path.map (·.text)).getD ['/']

/-- Nothing in a path alone looks like the end of a scheme. -/
def SchemeFree : Address → Prop
  | relative path => ¬schemeEnd <:+: path.text
  | absolute .. => True

end Address

end Url

/-- The parts of a URL. The fragment is anything. -/
structure Url where
  address : Url.Address
  query : Option (List Char)
  fragment : Option (List Char)
  hash : ∀ q ∈ query, '#' ∉ q

namespace Url

def written (u : Url) : String :=
  String.ofList (u.address.text ++ marked '?' u.query ++ marked '#' u.fragment)

/-- Neither a query nor a fragment begins in an address. -/
theorem Address.notMem_text {c : Char} (hc : c = '?' ∨ c = '#') (a : Address) : c ∉ a.text := by
  have hpath (p : Path) : c ∉ p.text := by
    rcases hc with rfl | rfl
    · exact p.question
    · exact p.hash
  cases a with
  | relative path => exact hpath path
  | absolute origin path =>
    have hscheme : c ∉ origin.scheme := by
      intro hmem
      have hchar := origin.isScheme c hmem
      rcases hc with rfl | rfl <;> exact absurd hchar (by decide)
    have hend : c ∉ schemeEnd := by
      rcases hc with rfl | rfl <;> decide
    have hauthority : c ∉ origin.authority := by
      intro hmem
      have hchar := origin.isAuthority c hmem
      rcases hc with rfl | rfl
      · exact hchar.2.1 rfl
      · exact hchar.2.2 rfl
    have hrest : c ∉ (path.map (·.text)).getD [] := by
      cases path with
      | none => exact List.not_mem_nil
      | some path => exact hpath path
    simp [Address.text, hscheme, hend, hauthority, hrest]

end Url

/-! ## What is read of a URL -/

namespace Request

open Url (schemeEnd)

theorem dropStart?_eq_none_iff {start cs : List Char} :
    dropStart? start cs = none ↔ ¬start <+: cs := by
  rw [Option.eq_none_iff_forall_ne_some]
  constructor
  · rintro h ⟨rest, rfl⟩
    exact h rest (dropStart?_eq_some_iff.mpr rfl)
  · intro h rest hrest
    exact h ⟨rest, (dropStart?_eq_some_iff.mp hrest).symm⟩

/-- A scheme is seen wherever a text holds the end of one. -/
theorem afterScheme?_eq_none_iff {cs : List Char} :
    afterScheme? cs = none ↔ ¬schemeEnd <:+: cs := by
  induction cs with
  | nil => simp [afterScheme?, schemeEnd]
  | cons c rest ih =>
    rw [afterScheme?, List.infix_cons_iff, not_or, ← ih]
    cases hdrop : dropStart? "://".toList (c :: rest) with
    | none =>
      have hhere : ¬schemeEnd <+: c :: rest := dropStart?_eq_none_iff.mp hdrop
      simp [hhere]
    | some after =>
      have hhere : schemeEnd <+: c :: rest := ⟨after, (dropStart?_eq_some_iff.mp hdrop).symm⟩
      simp [hhere]

/-- The end of a scheme is the first that there is. -/
theorem afterScheme?_append {scheme : List Char} (h : ':' ∉ scheme) (after : List Char) :
    afterScheme? (scheme ++ schemeEnd ++ after) = some after := by
  induction scheme with
  | nil => rfl
  | cons c rest ih =>
    have hc : ':' ≠ c := fun heq => h (heq ▸ List.mem_cons_self)
    have hrest : ':' ∉ rest := fun hmem => h (List.mem_cons_of_mem c hmem)
    have hdrop : dropStart? "://".toList (c :: (rest ++ schemeEnd ++ after)) = none := if_neg hc
    rw [List.cons_append, List.cons_append, afterScheme?, hdrop]
    exact ih hrest

theorem length_afterScheme?_le {cs after : List Char} (h : afterScheme? cs = some after) :
    after.length + 3 ≤ cs.length := by
  induction cs with
  | nil => exact nomatch h
  | cons c rest ih =>
    rw [afterScheme?] at h
    split at h
    · next hdrop =>
      obtain rfl := Option.some.inj h
      simp [dropStart?_eq_some_iff.mp hdrop]
    · have hlength := ih h
      rw [List.length_cons]
      omega

/-- The path behind an authority. -/
theorem pathOf_of_afterScheme? {cs authority : List Char} {path : Option Url.Path}
    (hauthority : ∀ c ∈ authority, c ≠ '/')
    (h : afterScheme? cs = some (authority ++ (path.map (·.text)).getD [])) :
    pathOf cs = (path.map (·.text)).getD ['/'] := by
  have hinside : ∀ c ∈ authority, decide (c ≠ '/') = true := fun c hc =>
    decide_eq_true (hauthority c hc)
  simp only [pathOf, h, List.dropWhile_append_of_pos hinside]
  cases path with
  | none => rfl
  | some path =>
    obtain ⟨text, hslash, _, _⟩ := path
    obtain ⟨rest, rfl⟩ : ∃ rest, text = '/' :: rest := by
      cases text with
      | nil => exact nomatch hslash
      | cons c rest => exact ⟨rest, by simpa using hslash⟩
    simp

/-- Where a scheme is seen, the path that is read is not the whole text. -/
theorem length_pathOf_lt {cs after : List Char} (h : afterScheme? cs = some after) :
    (pathOf cs).length < cs.length := by
  have hlength := length_afterScheme?_le h
  have hdrop := (List.dropWhile_sublist (· ≠ '/') (l := after)).length_le
  have hhead := List.head?_dropWhile_not (· ≠ '/') after
  simp only [pathOf, h]
  cases hpath : after.dropWhile (· ≠ '/') with
  | nil =>
    simp
    omega
  | cons c rest =>
    rw [hpath] at hdrop hhead
    obtain rfl : c = '/' := by simpa using hhead
    simp only [List.head?_cons, if_true]
    omega

/-- The path of an address is the path that is meant, unless a scheme is seen
in a path alone. -/
theorem pathOf_text_iff (a : Url.Address) : pathOf a.text = a.path ↔ a.SchemeFree := by
  cases a with
  | relative path =>
    show pathOf path.text = path.text ↔ ¬schemeEnd <:+: path.text
    rw [← afterScheme?_eq_none_iff]
    cases h : afterScheme? path.text with
    | none => simp [pathOf, h, path.slash]
    | some after =>
      have hlt := length_pathOf_lt h
      have hne : pathOf path.text ≠ path.text := fun heq => by simp [heq] at hlt
      simp [hne]
  | absolute origin path =>
    have hscheme : ':' ∉ origin.scheme := fun hmem =>
      absurd (origin.isScheme ':' hmem) (by decide)
    have hauthority : ∀ c ∈ origin.authority, c ≠ '/' := fun c hc => (origin.isAuthority c hc).1
    have hafter := afterScheme?_append hscheme
      (origin.authority ++ (path.map (·.text)).getD [])
    rw [← List.append_assoc] at hafter
    exact iff_of_true (pathOf_of_afterScheme? hauthority hafter) trivial

theorem ofUrl_written_eq (method : String) (u : Url) :
    ofUrl method u.written =
      ⟨methodOf method, String.ofList (pathOf u.address.text), Query.parse (u.query.getD [])⟩ :=
  ofUrl_marked (String.toList_ofList) (u.address.notMem_text (.inl rfl))
    (u.address.notMem_text (.inr rfl)) u.hash

/-- The query of a URL is always read. The path is read exactly if no scheme
is seen in a path alone; then the request is for the backend if the path says
so. -/
theorem ofUrl_written (method : String) (u : Url) :
    (ofUrl method u.written).query = Query.parse (u.query.getD []) ∧
      ((ofUrl method u.written).path.toList = u.address.path ↔ u.address.SchemeFree) ∧
      (u.address.SchemeFree →
        ((ofUrl method u.written).isApi = true ↔ apiStart.toList <+: u.address.path)) := by
  rw [ofUrl_written_eq]
  refine ⟨rfl, ?_, fun hfree => ?_⟩
  · rw [String.toList_ofList]
    exact pathOf_text_iff u.address
  · rw [isApi, String.toList_ofList, (pathOf_text_iff u.address).mpr hfree]
    exact List.isPrefixOf_iff_prefix

/-- A scheme in the path of a URL that has a scheme of its own. -/
def twoSchemes : Url where
  address :=
    .absolute ⟨"https".toList, "h:80".toList, by simp [Url.isSchemeChar], by simp⟩
      (some ⟨"/api/x://y".toList, rfl, by simp, by simp⟩)
  query := some "a=1?b".toList
  fragment := some "f?#".toList
  hash := by decide

theorem ofUrl_written_twoSchemes :
    twoSchemes.address.SchemeFree ∧
      (ofUrl "get" twoSchemes.written).query = Query.parse "a=1?b".toList ∧
      (ofUrl "get" twoSchemes.written).path.toList = "/api/x://y".toList ∧
      (ofUrl "get" twoSchemes.written).isApi = true := by
  have hfree : twoSchemes.address.SchemeFree := trivial
  obtain ⟨hquery, hpath, hapi⟩ := ofUrl_written "get" twoSchemes
  exact ⟨hfree, hquery, hpath.mpr hfree, (hapi hfree).mpr (by decide)⟩

/-- A path alone that holds a whole URL. -/
def redirect : Url where
  address :=
    .relative ⟨"/go/http://h/api/data".toList, rfl, by simp, by simp⟩
  query := none
  fragment := none
  hash := by decide

/-- It is read as the path of that URL, and the request goes to the backend. -/
theorem ofUrl_written_redirect :
    (ofUrl "GET" redirect.written).path.toList ≠ redirect.address.path ∧
      (ofUrl "GET" redirect.written).path = "/api/data" ∧
      (ofUrl "GET" redirect.written).isApi = true ∧
      ¬apiStart.toList <+: redirect.address.path := by
  refine ⟨?_, ?_, ?_, ?_⟩
  · decide +kernel
  · decide +kernel
  · decide +kernel
  · decide

end Request

/-! ## URLs whose query is written from pairs -/

namespace Url

def ofPairs (address : Address) (ps : List (String × String)) (fragment : Option (List Char)) :
    Url where
  address := address
  query := some (Query.text ps)
  fragment := fragment
  hash := by
    intro q hq
    obtain rfl := Option.some.inj hq
    exact Query.notMem_text (by decide) (by decide) (by decide) (by decide) ps

end Url

/-- The characters of a text that is encoded. -/
theorem Percent.mem_encode {s : String} {c : Char} (h : c ∈ (encode s).toList) :
    c.isAlphanum = true ∨ c ∈ "-_.!~*'()%".toList := by
  rcases isPlain_of_mem_encode h with hplain | rfl
  · rcases Bool.or_eq_true_iff.mp hplain with hletter | hmark
    · exact .inl hletter
    · exact .inr (List.mem_append_left ['%'] (List.contains_iff_mem.mp hmark))
  · exact .inr (by decide)

namespace Request

/-- Pairs without the name, in both ways to say it. -/
theorem forall_bne_iff {name : String} {ps : List (String × String)} :
    (∀ p ∈ ps, (name != p.1) = true) ↔ name ∉ ps.map (·.1) := by
  rw [List.mem_map]
  constructor
  · rintro h ⟨p, hp, rfl⟩
    exact bne_iff_ne.mp (h p hp) rfl
  · intro h p hp
    exact bne_iff_ne.mpr fun heq => h ⟨p, hp, heq.symm⟩

theorem param?_eq_none_iff {r : Request} {name : String} :
    r.param? name = none ↔ name ∉ r.query.map (·.1) := by
  rw [param?, List.lookup_eq_none_iff, forall_bne_iff]

/-- The value of a name is the first that is paired with it. -/
theorem param?_eq_some_iff {r : Request} {name value : String} :
    r.param? name = some value ↔ ∃ before after,
      r.query = before ++ (name, value) :: after ∧ name ∉ before.map (·.1) := by
  simp only [param?, List.lookup_eq_some_iff, forall_bne_iff]

/-- Pairs of texts are read as they were written, from a query and from every
URL that has this query. -/
theorem ofUrl_ofPairs (ps : List (String × String)) :
    Query.parse (Query.text ps) = ps ∧
      (∀ s : String, ∀ c ∈ (Percent.encode s).toList,
        c.isAlphanum = true ∨ c ∈ "-_.!~*'()%".toList) ∧
      (∀ s : String, Percent.decode (Percent.encode s).toList = s) ∧
      ∀ (method : String) (address : Url.Address) (fragment : Option (List Char)) (name : String),
        ((ofUrl method (Url.ofPairs address ps fragment).written).param? name = none ↔
          name ∉ ps.map (·.1)) ∧
        ∀ value : String,
          (ofUrl method (Url.ofPairs address ps fragment).written).param? name = some value ↔
            ∃ before after, ps = before ++ (name, value) :: after ∧ name ∉ before.map (·.1) := by
  refine ⟨Query.parse_text ps, fun s c => Percent.mem_encode, Percent.decode_encode, ?_⟩
  intro method address fragment name
  have hquery : (ofUrl method (Url.ofPairs address ps fragment).written).query = ps := by
    rw [ofUrl_written_eq]
    exact Query.parse_text ps
  refine ⟨?_, fun value => ?_⟩
  · rw [param?_eq_none_iff, hquery]
  · rw [param?_eq_some_iff, hquery]

end Request

end PagePreview
