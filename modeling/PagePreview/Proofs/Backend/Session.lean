/-
PagePreview.Proofs.Backend.Session — requests that leave no trace.

The backend serves a request in one of two ways. Either it makes a change,
confirms it and reports it, or it replies and is as it was before. The second
is the way of all requests that are refused, that only read, or that are
not for the backend. So these can be left out of any sequence of requests,
and nobody will notice it but for one thing: a request that is for the backend
is announced in the log before it is served, whatever becomes of it. The
announcement is for those who look for a fault, and with a request that is
left out its announcement is missing and no other record.

* `Session.serve_forms` — the ways to serve a request.
* `Session.announcement` — what is reported of a request before it is served.
* `Session.dispatch_cases` — a request commits a change, or leaves all as
  it was.
* `Session.dispatchAll` — requests that are sent one after the other, and
  `Session.reports`, what is reported of each of them.
* `Session.dispatchAll_select`, `Session.log_dispatchAll_select` — a sequence
  without requests that leave no trace.
* `Session.dispatchAll_without_traceless` — all of it together.
-/
import Mathlib
import PagePreview.Backend.Session

namespace PagePreview

namespace Session

/-! ## One request -/

theorem nonEmptyParam?_eq {r : Request} {name value : String} (h : r.param? name = some value)
    (hne : value ≠ "") : nonEmptyParam? r name = some value := by
  rw [nonEmptyParam?, h, Option.filter_some, if_pos (by simpa using hne)]

/-- A key is updated, an event is triggered, or there is a mere reply. A
posted request that gets a mere reply is refused. -/
theorem serve_forms (s : Session) (r : Request) :
    (r.method = "POST" ∧ ∃ key val, s.serve r = confirm (s.update key val)) ∨
      (r.method = "POST" ∧ ∃ event arg, s.serve r = confirm (s.trigger event arg)) ∨
      ∃ response, s.serve r = s.reply response ∧ (r.method = "POST" → response.status ≠ 200) := by
  unfold serve
  split_ifs with hdata hupdate htrigger hlist
  · refine .inr (.inr ⟨_, rfl, fun hpost => ?_⟩)
    rw [hdata.1] at hpost
    exact absurd hpost (by decide)
  · split
    · exact .inl ⟨hupdate.1, _, _, rfl⟩
    · exact .inr (.inr ⟨_, rfl, fun _ => (by decide : 400 ≠ 200)⟩)
  · split
    · exact .inr (.inl ⟨htrigger.1, _, _, rfl⟩)
    · exact .inr (.inr ⟨_, rfl, fun _ => (by decide : 400 ≠ 200)⟩)
  · have hget : r.method ≠ "POST" := by
      rw [hlist.1]
      decide
    split
    · exact .inr (.inr ⟨_, rfl, fun hpost => absurd hpost hget⟩)
    · exact .inr (.inr ⟨_, rfl, fun hpost => absurd hpost hget⟩)
  · exact .inr (.inr ⟨_, rfl, fun _ => (by decide : 404 ≠ 200)⟩)

/-- The request is posted and answered as a success. -/
def Commits (r : Request) (answer : Option Answer) : Prop :=
  r.method = "POST" ∧ ∃ a, answer = some a ∧ a.response.status = 200

/-- The request is not answered, refused, or only reads. -/
def Traceless (r : Request) (answer : Option Answer) : Prop :=
  ∀ a, answer = some a →
    a.response.status = 400 ∨ a.response.status = 404 ∨ r.method = "GET"

/-- The page is asked to look at the data again. -/
def AsksForRefresh (answer : Option Answer) : Prop :=
  ∃ a, answer = some a ∧ a.refreshView = true

theorem Traceless.not_commits {r : Request} {answer : Option Answer} (h : Traceless r answer) :
    ¬Commits r answer := by
  rintro ⟨hpost, a, ha, hok⟩
  rcases h a ha with hstatus | hstatus | hget
  · rw [hok] at hstatus
    exact absurd hstatus (by decide)
  · rw [hok] at hstatus
    exact absurd hstatus (by decide)
  · rw [hpost] at hget
    exact absurd hget (by decide)

/-- What is reported of a request before it is served. -/
def announcement (r : Request) : List LogRecord :=
  if r.isApi then [.dispatched r.method r.path] else []

theorem level_of_mem_announcement {r : Request} {l : LogRecord} (h : l ∈ announcement r) :
    l.level = "DEBUG" := by
  unfold announcement at h
  split_ifs at h
  · rw [List.mem_singleton.mp h]
    rfl
  · cases h

theorem dispatch_of_isApi (s : Session) {r : Request} (h : r.isApi) :
    s.dispatch r =
      ⟨some (s.serve r).result, (s.serve r).state,
        .dispatched r.method r.path :: (s.serve r).records⟩ := by
  rw [dispatch, if_pos h]

theorem dispatch_of_not_isApi (s : Session) {r : Request} (h : ¬r.isApi) :
    s.dispatch r = ⟨none, s, []⟩ := by
  rw [dispatch, if_neg h]

/-- Either the request commits a change and the page is asked to look at
the data, or the backend is as before and has reported nothing but the
request. -/
theorem dispatch_cases (s : Session) (r : Request) :
    (Commits r (s.dispatch r).result ∧ AsksForRefresh (s.dispatch r).result) ∨
      (¬Commits r (s.dispatch r).result ∧ ¬AsksForRefresh (s.dispatch r).result ∧
        (s.dispatch r).state = s ∧ (s.dispatch r).records = announcement r) := by
  by_cases hapi : r.isApi
  · rw [s.dispatch_of_isApi hapi, announcement, if_pos hapi]
    rcases s.serve_forms r with ⟨hpost, key, val, h⟩ | ⟨hpost, event, arg, h⟩ | ⟨response, h, hpost⟩
    · rw [h]
      exact .inl ⟨⟨hpost, _, rfl, rfl⟩, _, rfl, rfl⟩
    · rw [h]
      exact .inl ⟨⟨hpost, _, rfl, rfl⟩, _, rfl, rfl⟩
    · rw [h]
      refine .inr ⟨?_, ?_, rfl, rfl⟩
      · rintro ⟨hposted, a, ha, hok⟩
        obtain rfl := Option.some.inj ha
        exact hpost hposted hok
      · rintro ⟨a, ha, hrefresh⟩
        obtain rfl := Option.some.inj ha
        cases hrefresh
  · rw [s.dispatch_of_not_isApi hapi, announcement, if_neg hapi]
    refine .inr ⟨?_, ?_, rfl, rfl⟩
    · rintro ⟨-, a, ha, -⟩
      cases ha
    · rintro ⟨a, ha, -⟩
      cases ha

theorem asksForRefresh_iff (s : Session) (r : Request) :
    AsksForRefresh (s.dispatch r).result ↔ Commits r (s.dispatch r).result := by
  rcases s.dispatch_cases r with ⟨hcommits, hasks⟩ | ⟨hcommits, hasks, -⟩
  · exact iff_of_true hasks hcommits
  · exact iff_of_false hasks hcommits

theorem records_of_not_commits {s : Session} {r : Request}
    (h : ¬Commits r (s.dispatch r).result) : (s.dispatch r).records = announcement r := by
  rcases s.dispatch_cases r with ⟨hcommits, -⟩ | ⟨-, -, -, hrecords⟩
  · exact absurd hcommits h
  · exact hrecords

theorem commits_of_info {s : Session} {r : Request} {l : LogRecord}
    (hl : l ∈ (s.dispatch r).records) (hlevel : l.level = "INFO") :
    Commits r (s.dispatch r).result := by
  by_contra hcommits
  rw [records_of_not_commits hcommits] at hl
  rw [level_of_mem_announcement hl] at hlevel
  exact absurd hlevel (by decide)

/-- A request that leaves no trace. -/
theorem dispatch_of_traceless {s : Session} {r : Request}
    (h : Traceless r (s.dispatch r).result) :
    (s.dispatch r).state = s ∧ (s.dispatch r).records = announcement r := by
  rcases s.dispatch_cases r with ⟨hcommits, -⟩ | ⟨-, -, hstate, hrecords⟩
  · exact absurd hcommits h.not_commits
  · exact ⟨hstate, hrecords⟩

/-! ## Sequences of requests -/

/-- Sends requests one after the other. The results are the answers, in
order. -/
def dispatchAll (s : Session) : List Request → Step Session (List (Option Answer))
  | [] => ⟨[], s, []⟩
  | r :: rs =>
    let first := s.dispatch r
    let later := dispatchAll first.state rs
    ⟨first.result :: later.result, later.state, first.records ++ later.records⟩

/-- What is reported of each request, in order. -/
def reports (s : Session) : List Request → List (List LogRecord)
  | [] => []
  | r :: rs => (s.dispatch r).records :: reports (s.dispatch r).state rs

theorem records_dispatchAll (rs : List Request) (s : Session) :
    (s.dispatchAll rs).records = (s.reports rs).flatten := by
  induction rs generalizing s with
  | nil => rfl
  | cons r rs ih => simp only [dispatchAll, reports, List.flatten_cons, ih]

/-- The items whose places are kept. -/
def select {α : Type} (kept : Nat → Bool) : List α → List α
  | [] => []
  | x :: xs =>
    if kept 0 then x :: select (fun i => kept (i + 1)) xs else select (fun i => kept (i + 1)) xs

/-- The requests at the places that are not kept leave no trace. -/
def TracelessBeyond (kept : Nat → Bool) (rs : List Request) (answers : List (Option Answer)) :
    Prop :=
  ∀ i r answer, rs[i]? = some r → answers[i]? = some answer → kept i = false →
    Traceless r answer

theorem TracelessBeyond.tail {kept : Nat → Bool} {r : Request} {rs : List Request}
    {answer : Option Answer} {answers : List (Option Answer)}
    (h : TracelessBeyond kept (r :: rs) (answer :: answers)) :
    TracelessBeyond (fun i => kept (i + 1)) rs answers := by
  intro i r' answer' hr hanswer hkept
  exact h (i + 1) r' answer' hr hanswer hkept

theorem dispatchAll_select (rs : List Request) : ∀ (s : Session) (kept : Nat → Bool),
    TracelessBeyond kept rs (s.dispatchAll rs).result →
    s.dispatchAll (select kept rs) =
      ⟨select kept (s.dispatchAll rs).result, (s.dispatchAll rs).state,
        (select kept (s.reports rs)).flatten⟩ := by
  induction rs with
  | nil =>
    intro s kept _
    rfl
  | cons r rs ih =>
    intro s kept h
    have hrest := ih (s.dispatch r).state (fun i => kept (i + 1)) h.tail
    simp only [dispatchAll, reports, select]
    cases hkept : kept 0 with
    | true => simp only [if_true, dispatchAll, hrest, List.flatten_cons]
    | false =>
      -- The request is left out, so the others meet the session as it is.
      obtain ⟨hstate, -⟩ := dispatch_of_traceless (h 0 r _ rfl rfl hkept)
      rw [hstate] at hrest ⊢
      simp only [Bool.false_eq_true, if_false, hrest]

/-- Of the requests that leave no trace there is the announcement alone. -/
theorem reports_of_not_kept (rs : List Request) : ∀ {s : Session} {kept : Nat → Bool},
    TracelessBeyond kept rs (s.dispatchAll rs).result →
    ∀ {i : Nat} {r : Request}, rs[i]? = some r → kept i = false →
      (s.reports rs)[i]? = some (announcement r) := by
  induction rs with
  | nil =>
    intro s kept _ i r hr
    cases hr
  | cons r₀ rs ih =>
    intro s kept h i r hr hkept
    rcases i with _ | i
    · obtain rfl := Option.some.inj hr
      exact congrArg some (dispatch_of_traceless (h 0 r₀ _ rfl rfl hkept)).2
    · exact ih h.tail hr hkept

/-- A log that leaves out the announcements is the same without them. -/
theorem log_dispatchAll_select (rs : List Request) : ∀ (s : Session) (kept : Nat → Bool),
    TracelessBeyond kept rs (s.dispatchAll rs).result →
    (s.dispatchAll (select kept rs)).log = (s.dispatchAll rs).log := by
  induction rs with
  | nil =>
    intro s kept _
    rfl
  | cons r rs ih =>
    intro s kept h
    have hrest := ih (s.dispatch r).state (fun i => kept (i + 1)) h.tail
    unfold Step.log at hrest ⊢
    simp only [dispatchAll, select, List.filter_append]
    cases hkept : kept 0 with
    | true => simp only [if_true, dispatchAll, List.filter_append, hrest]
    | false =>
      obtain ⟨hstate, hrecords⟩ := dispatch_of_traceless (h 0 r _ rfl rfl hkept)
      have hlog : (announcement r).filter (·.level ≠ "DEBUG") = [] :=
        List.filter_eq_nil_iff.mpr fun l hl => by simp [level_of_mem_announcement hl]
      rw [hstate] at hrest ⊢
      rw [if_neg Bool.false_ne_true, hrecords, hlog, hrest, List.nil_append]

/-- Requests that are not answered, refused, or only read can be left out
of a sequence, any number of them: the data in the end, the answers to the
requests that are left, and what is reported of each of these are the same.
Of a request that is left out nothing was reported but its announcement, so
the log is the same unless it shows the announcements. The page is asked to
look at the data again exactly after posted requests that are answered as a
success, and of any other request there is the announcement alone. -/
theorem dispatchAll_without_traceless (s : Session) (rs : List Request) (kept : Nat → Bool)
    (h : TracelessBeyond kept rs (s.dispatchAll rs).result) :
    (s.dispatchAll (select kept rs) =
        ⟨select kept (s.dispatchAll rs).result, (s.dispatchAll rs).state,
          (select kept (s.reports rs)).flatten⟩ ∧
      (s.dispatchAll rs).records = (s.reports rs).flatten ∧
      (∀ (i : Nat) (r : Request), rs[i]? = some r → kept i = false →
        (s.reports rs)[i]? = some (announcement r)) ∧
      (s.dispatchAll (select kept rs)).log = (s.dispatchAll rs).log) ∧
    ∀ (t : Session) (r : Request),
      (AsksForRefresh (t.dispatch r).result ↔ Commits r (t.dispatch r).result) ∧
      (¬Commits r (t.dispatch r).result → (t.dispatch r).records = announcement r) ∧
      ∀ l ∈ (t.dispatch r).records, l.level = "INFO" → Commits r (t.dispatch r).result :=
  ⟨⟨dispatchAll_select rs s kept h, records_dispatchAll rs s,
    fun _ _ => reports_of_not_kept rs h, log_dispatchAll_select rs s kept h⟩,
   fun t r => ⟨t.asksForRefresh_iff r, records_of_not_commits, fun _ => commits_of_info⟩⟩

/-- An update, a request that only reads, one without its event, one for
somebody else, one with a wrong method, and another update. -/
def mixedRequests : List Request :=
  [⟨"POST", "/api/update", [("key", "k"), ("val", "1")]⟩,
   ⟨"GET", "/api/data", []⟩,
   ⟨"POST", "/api/trigger", [("event", "")]⟩,
   ⟨"POST", "/index.html", []⟩,
   ⟨"PUT", "/api/data", []⟩,
   ⟨"POST", "/api/update", [("key", "k"), ("val", "2")]⟩]

/-- The places of the updates. -/
def isUpdatePlace (i : Nat) : Bool :=
  i == 0 || i == 5

theorem result_mixedRequests : ((ofBootstrap .empty).dispatchAll mixedRequests).result =
    [some ⟨.ok, true⟩, some ⟨.json "\x7b\"k\":\"1\"\x7d", false⟩,
      some ⟨.text 400 "Missing event param", false⟩, none, some ⟨.notFound, false⟩,
      some ⟨.ok, true⟩] := by
  decide +kernel

theorem tracelessBeyond_mixedRequests :
    TracelessBeyond isUpdatePlace mixedRequests
      ((ofBootstrap .empty).dispatchAll mixedRequests).result := by
  rw [result_mixedRequests]
  intro i r answer hr hanswer hkept a ha
  rcases i with _ | _ | _ | _ | _ | _ | i
  · cases hkept
  · obtain rfl := Option.some.inj hr
    exact .inr (.inr rfl)
  · obtain rfl := Option.some.inj ((Option.some.inj hanswer).trans ha)
    exact .inl rfl
  · cases (Option.some.inj hanswer).trans ha
  · obtain rfl := Option.some.inj ((Option.some.inj hanswer).trans ha)
    exact .inr (.inl rfl)
  · cases hkept
  · cases hr

theorem dispatchAll_without_traceless_mixed :
    TracelessBeyond isUpdatePlace mixedRequests
        ((ofBootstrap .empty).dispatchAll mixedRequests).result ∧
      (ofBootstrap .empty).dispatchAll (select isUpdatePlace mixedRequests) =
        ⟨[some ⟨.ok, true⟩, some ⟨.ok, true⟩],
          ((ofBootstrap .empty).dispatchAll mixedRequests).state,
          [.dispatched "POST" "/api/update", .modelUpdated "k" "1",
            .dispatched "POST" "/api/update", .modelUpdated "k" "2"]⟩ ∧
      ((ofBootstrap .empty).dispatchAll (select isUpdatePlace mixedRequests)).log =
        ((ofBootstrap .empty).dispatchAll mixedRequests).log := by
  have hreports : (select isUpdatePlace ((ofBootstrap .empty).reports mixedRequests)).flatten =
      [.dispatched "POST" "/api/update", .modelUpdated "k" "1",
        .dispatched "POST" "/api/update", .modelUpdated "k" "2"] := by
    decide +kernel
  obtain ⟨hall, -, -, hlog⟩ := (dispatchAll_without_traceless _ mixedRequests isUpdatePlace
    tracelessBeyond_mixedRequests).1
  rw [result_mixedRequests, hreports] at hall
  exact ⟨tracelessBeyond_mixedRequests, hall, hlog⟩

/-- The announcements of the requests that are left out are missing. -/
theorem records_dispatchAll_mixed :
    TracelessBeyond isUpdatePlace mixedRequests
        ((ofBootstrap .empty).dispatchAll mixedRequests).result ∧
      ((ofBootstrap .empty).dispatchAll mixedRequests).records =
        [.dispatched "POST" "/api/update", .modelUpdated "k" "1", .dispatched "GET" "/api/data",
          .dispatched "POST" "/api/trigger", .dispatched "PUT" "/api/data",
          .dispatched "POST" "/api/update", .modelUpdated "k" "2"] ∧
      ((ofBootstrap .empty).dispatchAll (select isUpdatePlace mixedRequests)).records ≠
        ((ofBootstrap .empty).dispatchAll mixedRequests).records := by
  refine ⟨tracelessBeyond_mixedRequests, ?_, ?_⟩
  · decide +kernel
  · decide +kernel

end Session

end PagePreview
