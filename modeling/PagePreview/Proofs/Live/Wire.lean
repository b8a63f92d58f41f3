/-
PagePreview.Proofs.Live.Wire — between a page and its backend nothing is
lost.

A page talks to its backend in requests only, so what a press or an edit
does to the backend depends on what is left of its texts once they were
encoded, put into a URL, taken out of it and decoded. It is all of them: a
press is the event itself, and an edit is the update itself. The only thing
that tells them apart is that requests are announced, in a log that is asked
for such records: the request of the press or the edit before what it leads
to, and that of the pull after a press.

* `Request.ofUrl_triggerUrl`, `Request.ofUrl_updateUrl` — the requests that
  arrive.
* `press_eq`, `press_empty` — what a press does.
* `change_eq`, `change_of_key_eq_empty`, `change_of_not_editable` — what an
  edit does.
* `LivePage.transparent` — all of it together.
-/
import PagePreview.Proofs.Backend.Session
import PagePreview.Proofs.Live.Sync
import PagePreview.Proofs.Url.Request

namespace PagePreview

/-! ## Requests -/

namespace Request

open LivePage (triggerUrl updateUrl)

/-- The names of the parameters are written as they are. -/
theorem encode_names : Percent.encode "event" = "event" ∧ Percent.encode "arg" = "arg" ∧
    Percent.encode "key" = "key" ∧ Percent.encode "val" = "val" := by
  decide

/-- The request of a button, as it arrives. -/
theorem ofUrl_triggerUrl (event : String) (arg : Option String) :
    ofUrl "POST" (triggerUrl event arg) =
      ⟨"POST", "/api/trigger",
        ("event", event) :: ((nonEmpty? arg).map fun a => ("arg", a)).toList⟩ := by
  have hurl : (triggerUrl event arg).toList = "/api/trigger".toList ++ '?' ::
      Query.text (("event", event) :: ((nonEmpty? arg).map fun a => ("arg", a)).toList) := by
    obtain ⟨hevent, harg, -⟩ := encode_names
    unfold triggerUrl
    cases nonEmpty? arg <;> simp [Query.text, Query.pairText, List.intercalate, hevent, harg]
  rw [ofUrl_query hurl (by decide) (by decide)
    (Query.notMem_text (by decide) (by decide) (by decide) (by decide) _), Query.parse_text]
  rfl

/-- The request of a field, as it arrives. -/
theorem ofUrl_updateUrl (key value : String) :
    ofUrl "POST" (updateUrl key value) =
      ⟨"POST", "/api/update", [("key", key), ("val", value)]⟩ := by
  have hurl : (updateUrl key value).toList = "/api/update".toList ++ '?' ::
      Query.text [("key", key), ("val", value)] := by
    obtain ⟨-, -, hkey, hval⟩ := encode_names
    unfold updateUrl
    simp [Query.text, Query.pairText, List.intercalate, hkey, hval]
  rw [ofUrl_query hurl (by decide) (by decide)
    (Query.notMem_text (by decide) (by decide) (by decide) (by decide) _), Query.parse_text]
  rfl

end Request

namespace Session

/-! ## Answers -/

/-- A press is answered on its own path. -/
theorem serve_trigger (s : Session) (query : List (String × String)) :
    s.serve ⟨"POST", "/api/trigger", query⟩ =
      match nonEmptyParam? ⟨"POST", "/api/trigger", query⟩ "event" with
      | some event => confirm (s.trigger event ((query.lookup "arg").getD ""))
      | none => s.reply (.text 400 "Missing event param") := by
  rw [serve, if_neg (by simp), if_neg (by simp), if_pos ⟨rfl, rfl⟩]
  rfl

/-- An edit is answered on its own path. -/
theorem serve_update (s : Session) (query : List (String × String)) :
    s.serve ⟨"POST", "/api/update", query⟩ =
      match nonEmptyParam? ⟨"POST", "/api/update", query⟩ "key", query.lookup "val" with
      | some key, some val => confirm (s.update key val)
      | _, _ => s.reply (.text 400 "Missing params") := by
  rw [serve, if_neg (by simp), if_pos ⟨rfl, rfl⟩]
  rfl

theorem isApi_of_prefix {r : Request} (h : r.path = "/api/trigger" ∨ r.path = "/api/update") :
    r.isApi := by
  rw [Request.isApi]
  rcases h with h | h <;> rw [h] <;> decide

theorem dispatch_trigger (s : Session) {event : String} (hevent : event ≠ "")
    (arg : Option String) :
    s.dispatch (.ofUrl "POST" (LivePage.triggerUrl event arg)) =
      ⟨some ⟨.ok, true⟩, (s.trigger event (arg.getD "")).state,
        .dispatched "POST" "/api/trigger" :: (s.trigger event (arg.getD "")).records⟩ := by
  rw [Request.ofUrl_triggerUrl]
  generalize hquery : ("event", event) :: ((nonEmpty? arg).map fun a => ("arg", a)).toList = query
  have hapi : (Request.mk "POST" "/api/trigger" query).isApi := isApi_of_prefix (.inl rfl)
  have hparam : nonEmptyParam? ⟨"POST", "/api/trigger", query⟩ "event" = some event :=
    nonEmptyParam?_eq (by rw [← hquery]; rfl) hevent
  have harg : (query.lookup "arg").getD "" = arg.getD "" := by
    rw [← hquery]
    rcases arg with _ | a
    · rfl
    · by_cases ha : a = "" <;> simp [nonEmpty?, Option.filter_some, ha, List.lookup_cons]
  rw [dispatch_of_isApi s hapi, serve_trigger, hparam, harg]
  rfl

theorem dispatch_trigger_empty (s : Session) (arg : Option String) :
    s.dispatch (.ofUrl "POST" (LivePage.triggerUrl "" arg)) =
      ⟨some ⟨.text 400 "Missing event param", false⟩, s,
        [.dispatched "POST" "/api/trigger"]⟩ := by
  rw [Request.ofUrl_triggerUrl]
  generalize ((nonEmpty? arg).map fun a => ("arg", a)).toList = rest
  have hapi : (Request.mk "POST" "/api/trigger" (("event", "") :: rest)).isApi :=
    isApi_of_prefix (.inl rfl)
  have hparam : nonEmptyParam? ⟨"POST", "/api/trigger", ("event", "") :: rest⟩ "event" = none := by
    simp [nonEmptyParam?, Request.param?]
  rw [dispatch_of_isApi s hapi, serve_trigger, hparam]
  rfl

theorem dispatch_update (s : Session) {key : String} (hkey : key ≠ "") (value : String) :
    s.dispatch (.ofUrl "POST" (LivePage.updateUrl key value)) =
      ⟨some ⟨.ok, true⟩, (s.update key value).state,
        .dispatched "POST" "/api/update" :: (s.update key value).records⟩ := by
  rw [Request.ofUrl_updateUrl]
  have hapi : (Request.mk "POST" "/api/update" [("key", key), ("val", value)]).isApi :=
    isApi_of_prefix (.inr rfl)
  rw [dispatch_of_isApi s hapi, serve_update, nonEmptyParam?_eq rfl hkey]
  rfl

theorem dispatch_update_empty (s : Session) (value : String) :
    s.dispatch (.ofUrl "POST" (LivePage.updateUrl "" value)) =
      ⟨some ⟨.text 400 "Missing params", false⟩, s, [.dispatched "POST" "/api/update"]⟩ := by
  rw [Request.ofUrl_updateUrl]
  have hapi : (Request.mk "POST" "/api/update" [("key", ""), ("val", value)]).isApi :=
    isApi_of_prefix (.inr rfl)
  have hparam : nonEmptyParam? ⟨"POST", "/api/update", [("key", ""), ("val", value)]⟩ "key" =
      none := by
    simp [nonEmptyParam?, Request.param?]
  rw [dispatch_of_isApi s hapi, serve_update, hparam]
  rfl

end Session

namespace LivePage

/-! ## Presses and edits -/

/-- A press is the event itself, and the data is shown once. -/
theorem press_eq (p : LivePage) {event : String} (hevent : event ≠ "") (arg : Option String) :
    p.press event arg =
      ⟨some .ok,
        { p with
          session := (p.session.trigger event (arg.getD "")).state
          view := p.view.refresh (p.session.trigger event (arg.getD "")).state.store },
        .dispatched "POST" "/api/trigger" :: (p.session.trigger event (arg.getD "")).records ++
          [.dispatched "GET" "/api/data"]⟩ := by
  have hsent : p.fetch (.ofUrl "POST" (triggerUrl event arg)) =
      ⟨some .ok,
        { p with
          session := (p.session.trigger event (arg.getD "")).state
          view := p.view.refresh (p.session.trigger event (arg.getD "")).state.store },
        .dispatched "POST" "/api/trigger" :: (p.session.trigger event (arg.getD "")).records⟩ := by
    rw [fetch, Session.dispatch_trigger p.session hevent arg]
    rfl
  rw [press, hsent]
  simp only [sync_eq, refresh, View.refresh_refresh]

/-- A press without an event is refused, and the data is shown once. -/
theorem press_empty (p : LivePage) (arg : Option String) :
    p.press "" arg =
      ⟨some (.text 400 "Missing event param"), p.refresh,
        [.dispatched "POST" "/api/trigger", .dispatched "GET" "/api/data"]⟩ := by
  have hsent : p.fetch (.ofUrl "POST" (triggerUrl "" arg)) =
      ⟨some (.text 400 "Missing event param"), p, [.dispatched "POST" "/api/trigger"]⟩ := by
    rw [fetch, Session.dispatch_trigger_empty]
    rfl
  rw [press, hsent]
  simp only [sync_eq]
  rfl

theorem editReport_ok (url : String) : editReport url (some .ok) = [] := rfl

/-- An edit of a field is the update itself, and the data is shown once. -/
theorem change_eq (p : LivePage) {index : Nat} {e : BoundElement} (he : p.view[index]? = some e)
    (hkind : e.kind = .editable) (hkey : e.key ≠ "") (value : String) :
    p.change index value =
      ⟨(),
        { p with
          session := (p.session.update e.key value).state
          view := (p.view.setValue index value).refresh
            (p.session.update e.key value).state.store },
        .dispatched "POST" "/api/update" :: (p.session.update e.key value).records⟩ := by
  rw [change, he]
  simp only [if_pos hkind, fetch, Session.dispatch_update p.session hkey value, Option.map_some,
    editReport_ok, List.append_nil]
  rfl

/-- An edit of a field without a key is refused, which is reported. -/
theorem change_of_key_eq_empty (p : LivePage) {index : Nat} {e : BoundElement}
    (he : p.view[index]? = some e) (hkind : e.kind = .editable) (hkey : e.key = "")
    (value : String) :
    p.change index value =
      ⟨(), { p with view := p.view.setValue index value },
        [.dispatched "POST" "/api/update", .editRefused (updateUrl "" value) "Missing params"]⟩ := by
  rw [change, he]
  simp only [if_pos hkind, hkey, fetch, Session.dispatch_update_empty]
  rfl

/-- Without a field there is no edit. -/
theorem change_of_not_editable (p : LivePage) {index : Nat}
    (h : ∀ e, p.view[index]? = some e → e.kind ≠ .editable) (value : String) :
    p.change index value = ⟨(), p, []⟩ := by
  unfold change
  split
  next e he => rw [if_neg (h e he)]
  next => rfl

/-- A press is the event also in a log that leaves the requests out. -/
theorem log_press (p : LivePage) {event : String} (hevent : event ≠ "") (arg : Option String) :
    (p.press event arg).log = (p.session.trigger event (arg.getD "")).log := by
  rw [press_eq p hevent]
  simp [Step.log, LogRecord.level]

/-- An edit is the update also in a log that leaves the requests out. -/
theorem log_change (p : LivePage) {index : Nat} {e : BoundElement} (he : p.view[index]? = some e)
    (hkind : e.kind = .editable) (hkey : e.key ≠ "") (value : String) :
    (p.change index value).log = (p.session.update e.key value).log := by
  rw [change_eq p he hkind hkey]
  simp [Step.log, LogRecord.level]

/-- Between a page and its backend nothing is lost, whatever characters the
texts are made of. A press with an event is the event, and a press without
one is refused; an edit of a field is the update, and without a field there
is none. The requests on the way carry the texts as they are, and are the only
thing that is reported besides. -/
theorem transparent (p : LivePage) :
    (∀ (event : String) (arg : Option String), event ≠ "" →
      p.press event arg =
          ⟨some .ok,
            { p with
              session := (p.session.trigger event (arg.getD "")).state
              view := p.view.refresh (p.session.trigger event (arg.getD "")).state.store },
            .dispatched "POST" "/api/trigger" :: (p.session.trigger event (arg.getD "")).records ++
              [.dispatched "GET" "/api/data"]⟩ ∧
        (p.press event arg).log = (p.session.trigger event (arg.getD "")).log) ∧
    (∀ arg : Option String,
      p.press "" arg =
        ⟨some (.text 400 "Missing event param"),
          { p with view := p.view.refresh p.session.store },
          [.dispatched "POST" "/api/trigger", .dispatched "GET" "/api/data"]⟩) ∧
    (∀ (index : Nat) (e : BoundElement) (value : String), p.view[index]? = some e →
      e.kind = .editable → e.key ≠ "" →
        p.change index value =
            ⟨(),
              { p with
                session := (p.session.update e.key value).state
                view := (p.view.setValue index value).refresh
                  (p.session.update e.key value).state.store },
              .dispatched "POST" "/api/update" :: (p.session.update e.key value).records⟩ ∧
          (p.change index value).log = (p.session.update e.key value).log) ∧
    (∀ (index : Nat) (value : String), (∀ e, p.view[index]? = some e → e.kind ≠ .editable) →
      p.change index value = ⟨(), p, []⟩) ∧
    (∀ (event : String) (arg : Option String),
      Request.ofUrl "POST" (triggerUrl event arg) =
        ⟨"POST", "/api/trigger",
          ("event", event) :: ((nonEmpty? arg).map fun a => ("arg", a)).toList⟩) ∧
    ∀ key value : String,
      Request.ofUrl "POST" (updateUrl key value) =
        ⟨"POST", "/api/update", [("key", key), ("val", value)]⟩ :=
  ⟨fun _ arg hevent => ⟨p.press_eq hevent arg, p.log_press hevent arg⟩, p.press_empty,
    fun _ _ value he hkind hkey =>
      ⟨p.change_eq he hkind hkey value, p.log_change he hkind hkey value⟩,
    fun _ value h => p.change_of_not_editable h value,
    Request.ofUrl_triggerUrl, Request.ofUrl_updateUrl⟩

/-- Texts that are made of the characters that separate the parts of a URL. -/
theorem transparent_separators :
    (start .empty [.fresh "k=&" .editable]).press "a&b=#?+%/: \"é" (some "😀 &arg=") =
        ⟨some .ok, (start .empty [.fresh "k=&" .editable]).refresh,
          [.dispatched "POST" "/api/trigger", .triggered "a&b=#?+%/: \"é" "😀 &arg=",
            .dispatched "GET" "/api/data"]⟩ ∧
      ((start .empty [.fresh "k=&" .editable]).change 0 "v#?").records =
        [.dispatched "POST" "/api/update", .modelUpdated "k=&" "v#?"] ∧
      (start .empty [.fresh "k=&" .editable]).change 1 "v" =
        ⟨(), start .empty [.fresh "k=&" .editable], []⟩ := by
  obtain ⟨hpress, -, hchange, hnone, -, -⟩ := transparent (start .empty [.fresh "k=&" .editable])
  refine ⟨(hpress _ _ (by decide)).1, ?_, hnone 1 "v" (fun _ h => by cases h)⟩
  rw [(hchange 0 _ "v#?" rfl rfl (by decide)).1]
  rfl

/-- A press is reported with the two requests that it sends, and the event on
the backend itself is not. -/
theorem records_press_ne :
    ((start .empty []).press "inc" none).records =
        [.dispatched "POST" "/api/trigger", .triggered "inc" "", .dispatched "GET" "/api/data"] ∧
      ((start .empty []).session.trigger "inc" "").records = [.triggered "inc" ""] ∧
      ((start .empty []).press "inc" none).records ≠
        ((start .empty []).session.trigger "inc" "").records := by
  rw [press_eq _ (by decide)]
  decide

end LivePage

end PagePreview
