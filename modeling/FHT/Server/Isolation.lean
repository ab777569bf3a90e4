import FHT.Server.Handling

/-!
# What requests on one connection leave behind

An `HttpServer` keeps `m_dataReq` and `m_func` from one request to the next. The fields of
`m_dataReq` that `on_read` assigns are as on a new connection; its headers are merged and
`WSInstanse` is not touched. `m_func` is assigned by the routing loop, unless the location is
empty.

## Main results

- `requestsIsolated_iff` — when handlers see nothing of earlier requests
- `unreached_answered` — unreached requests are answered without a handler
-/

namespace FHT.Server

variable {ρ F A : Type}

/-- The handler calls among the events, with the `dataRequest` of each. -/
def handlerCalls (log : List (Event ρ F A)) : List (F × DataRequest A) :=
  log.filterMap fun
    | .handler f d => some (f, d)
    | _ => none

theorem Handling.handlerCalls_events (http : Http ρ) (req : Request) (d : Handling ρ F A) :
    handlerCalls (d.events http req) = d.called.toList := by
  rw [events, handlerCalls, List.filterMap_append, List.filterMap_map, List.filterMap_map]
  cases d.called <;> cases d.response http req <;> rfl

/-- Filling in overwrites everything but the headers and `WSInstanse`. -/
theorem DataRequest.fill_eq_fill_empty_iff (d : DataRequest A) (a : Arrival F A)
    (info : Endpoint) (nextLocation : Str) :
    d.fill a info nextLocation = DataRequest.empty.fill a info nextLocation ↔
      (∀ k v, d.headers[k]? = some v → a.req.base.lookup k = some v) ∧ d.wsInstanse = none := by
  rw [← StdMap.emplaceAll_eq_emplaceAll_empty_iff]
  simp [fill, withHead, withPeer, empty]

namespace Async.HttpServer

/-- What a handler called for the arrival receives, an `HttpServer` that has read no request
before passes too. -/
def Isolated (http : Http ρ) (h : HttpServer ρ F A) (a : Arrival F A) : Prop :=
  ∀ f d, handlerCalls (h.onRead http a).log = handlerCalls h.log ++ [(f, d)] →
    handlerCalls ((init h.lessenAll).onRead http a).log = [(f, d)]

/-- What earlier requests left makes no difference for the arrival: there is no handler left
that an empty location would take over, and if a handler is reached, each header left is in the
request with the same first value and no `WSInstanse` is left. -/
def NothingLeft (h : HttpServer ρ F A) (a : Arrival F A) : Prop :=
  a.req.method.dispatched → a.remote ≠ none →
    (ownLocation h.lessenAll a.req.target = [] → h.func = none) ∧
    (Reached a.H false (ownLocation h.lessenAll a.req.target) →
      (∀ k v, h.dataReq.headers[k]? = some v → a.req.base.lookup k = some v) ∧
        h.dataReq.wsInstanse = none)

theorem handlerCalls_onRead (http : Http ρ) (h : HttpServer ρ F A) (a : Arrival F A) :
    handlerCalls (h.onRead http a).log = handlerCalls h.log ++
      (handling http h.lessenAll h.dataReq h.func a).called.toList := by
  rw [(onRead_follows http h a).1, handlerCalls, List.filterMap_append]
  exact congrArg _ (Handling.handlerCalls_events http a.req _)

theorem isolated_iff_called (http : Http ρ) (h : HttpServer ρ F A) (a : Arrival F A) :
    Isolated http h a ↔ ∀ p ∈ (handling http h.lessenAll h.dataReq h.func a).called,
      (handling http h.lessenAll .empty none a).called = some p := by
  have hfresh : handlerCalls ((init h.lessenAll).onRead http a).log =
      (handling http h.lessenAll .empty none a).called.toList := handlerCalls_onRead http _ a
  rw [Isolated, hfresh, handlerCalls_onRead]
  constructor
  · intro hiso p hp
    have := hiso p.1 p.2 (by rw [Option.mem_def.mp hp]; rfl)
    cases hc : (handling http h.lessenAll .empty none a).called with
    | none => simp [hc] at this
    | some q => simpa [hc] using this
  · intro hcalled f d hlog
    have := List.append_cancel_left hlog
    cases hc : (handling http h.lessenAll h.dataReq h.func a).called with
    | none => simp [hc] at this
    | some q =>
      obtain rfl : q = (f, d) := by simpa [hc] using this
      rw [hcalled _ hc]
      rfl

theorem isolated_iff (http : Http ρ) (h : HttpServer ρ F A) {a : Arrival F A}
    (hup : a.req.isUpgrade = false) : Isolated http h a ↔ NothingLeft h a := by
  rw [isolated_iff_called]
  unfold NothingLeft handling
  cases hm : a.req.method.dispatched with
  | false => cases a.req.method <;> simp [Handling.called]
  | true =>
    cases hr : a.remote with
    | none => simp [Handling.called]
    | some info =>
      simp only [hup, Bool.false_eq_true, if_false, if_true, routing]
      by_cases hL : ownLocation h.lessenAll a.req.target = []
      · -- the loop does not run: a handler that is left is called, a new server has none
        simp only [hL, if_true, not_reached_nil]
        cases h.func <;> simp [Handling.called]
      · simp only [hL, if_false]
        cases hs : select a.H false (ownLocation h.lessenAll a.req.target)
            (ownLocation h.lessenAll a.req.target).length with
        | none =>
          have hnot := (select_eq_none_iff_not_reached a.H false _).mp hs
          simp [routed, Handling.called, hnot]
        | some p =>
          obtain ⟨f, i⟩ := p
          have hreached := reached_of_select a.H false hs
          rw [← DataRequest.fill_eq_fill_empty_iff h.dataReq a info
            ('.' :: (ownLocation h.lessenAll a.req.target).drop i)]
          simp [routed, Handling.called, hreached, eq_comm]

/-- In a run from a new connection, no handler called for a request that is no upgrade sees
anything of an earlier request. -/
def RequestsIsolated (http : Http ρ) (lessenAll : Bool) (acts : List (Action F A)) : Prop :=
  (step http).Along (fun h act _ => ∀ a, act = .read a → a.req.isUpgrade = false →
    Isolated http h a) (init lessenAll) acts

/-- Requests are isolated from each other exactly in the runs in which nothing that earlier
requests left makes a difference. -/
theorem requestsIsolated_iff (http : Http ρ) (lessenAll : Bool) (acts : List (Action F A)) :
    RequestsIsolated http lessenAll acts ↔
      (step http).Along (fun h act _ => ∀ a, act = .read a → a.req.isUpgrade = false →
        NothingLeft h a) (init lessenAll) acts := by
  refine Machine.along_congr (fun h act _ _ => ?_) _ _
  constructor
  · exact fun hiso a ha hup => (isolated_iff http h hup).mp (hiso a ha hup)
  · exact fun hleft a ha hup => (isolated_iff http h hup).mpr (hleft a ha hup)

/-- The second of two requests for the same handler is passed the header of the first. -/
theorem header_of_earlier_request : ¬ RequestsIsolated Message.http false
    [.read (getWith "/a".toList "1".toList), .written true,
      .read (getWith "/a".toList "2".toList)] := by
  intro h
  have hiso := Machine.along_iff_forall.mp h
    [.read (getWith "/a".toList "1".toList), .written true]
    (.read (getWith "/a".toList "2".toList)) [] rfl _ _ rfl rfl _ rfl rfl
  have hreached : Reached (getWith "/a".toList "2".toList).H false
      (ownLocation false "/a".toList) :=
    ⟨2, by decide, by decide, by decide, by decide⟩
  have hleft := (((isolated_iff Message.http _ rfl).mp hiso) rfl (by simp [getWith])).2 hreached
  have hlookup := hleft.1 "X".toList "1".toList (by decide)
  revert hlookup
  decide

/-- The request is answered at once with this status, and no handler is called. -/
def Answered (http : Http ρ) (status : Nat) (h : HttpServer ρ F A) (a : Arrival F A) : Prop :=
  ∃ res, http.status res = status ∧ (h.onRead http a).log = h.log ++ [.response res] ∧
    (h.onRead http a).pending = .write (http.needEof res)

theorem answered_iff (http : Http ρ) (status : Nat) (h : HttpServer ρ F A) (a : Arrival F A) :
    Answered http status h a ↔ ∃ res, http.status res = status ∧
      handling http h.lessenAll h.dataReq h.func a = .answer res := by
  obtain ⟨hlog, hpending, _⟩ := onRead_follows http h a
  rw [Answered, hlog, hpending]
  constructor
  · rintro ⟨res, hstatus, hevents, _⟩
    have hevents := List.append_cancel_left hevents
    cases hd : handling http h.lessenAll h.dataReq h.func a with
    | answer res' =>
      obtain rfl : res' = res := by
        simpa [hd, Handling.events, Handling.called, Handling.response] using hevents
      exact ⟨res', hstatus, rfl⟩
    | call | upgrade | throw =>
      simp [hd, Handling.events, Handling.called, Handling.response] at hevents
  · rintro ⟨res, hstatus, hd⟩
    exact ⟨res, hstatus, by rw [hd]; rfl, by rw [hd]; rfl⟩

/-- The status of the answer where no handler is reached. Only `GET`, `POST` and `PUT` are looked
up at all. -/
def unreachedStatus : Verb → Nat
  | .get | .post | .put => 404
  | .head => 200
  | .other => 400

/-- The routing of this arrival is that of a new connection: the peer is known, and an empty
location meets no handler of an earlier request. -/
def RoutedAfresh (h : HttpServer ρ F A) (a : Arrival F A) : Prop :=
  a.remote ≠ none ∧ (ownLocation h.lessenAll a.req.target = [] → h.func = none)

theorem handling_of_unreached (http : Http ρ) {h : HttpServer ρ F A} {a : Arrival F A}
    (hr : ¬ Reached a.H a.req.isUpgrade (ownLocation h.lessenAll a.req.target))
    (hafresh : h.RoutedAfresh a) (hm : a.req.method.dispatched) :
    handling http h.lessenAll h.dataReq h.func a =
      .answer (http.notFound a.req "Unknown HTTP handler".toList) := by
  obtain ⟨info, hinfo⟩ := Option.ne_none_iff_exists'.mp hafresh.1
  have hnone : (routing h.lessenAll h.func a).1 = none := by
    rw [routing]
    by_cases hL : ownLocation h.lessenAll a.req.target = []
    · simp [hL, hafresh.2 hL]
    · have hs := (select_eq_none_iff_not_reached a.H a.req.isUpgrade _).mpr hr
      simp [hL, hs, routed]
  rw [handling, if_pos hm, hinfo]
  cases hrouting : routing h.lessenAll h.func a with
  | mk func nextLocation =>
    obtain rfl : func = none := by rw [← hnone, hrouting]
    rfl

theorem answered_of_unreached {http : Http ρ} (hlaw : http.Lawful) {h : HttpServer ρ F A}
    {a : Arrival F A}
    (hr : ¬ Reached a.H a.req.isUpgrade (ownLocation h.lessenAll a.req.target))
    (hafresh : a.req.method.dispatched → h.RoutedAfresh a) :
    Answered http (unreachedStatus a.req.method) h a := by
  rw [answered_iff]
  have hfound (hm : a.req.method.dispatched) := handling_of_unreached http hr (hafresh hm) hm
  unfold handling at hfound ⊢
  cases hv : a.req.method with
  | get | post | put =>
    rw [hv] at hfound
    exact ⟨_, hlaw.status_errorAnswer a.req 404 _, hfound rfl⟩
  | head => exact ⟨_, hlaw.status_headAnswer a.req, rfl⟩
  | other => exact ⟨_, hlaw.status_errorAnswer a.req 400 _, rfl⟩

/-- In a run from a new connection, every request by whose own location no registered key is
reached is answered 404 without a handler. -/
def UnreachedNotFound (http : Http ρ) (lessenAll : Bool) (acts : List (Action F A)) : Prop :=
  (step http).Along (fun h act _ => ∀ a, act = .read a →
    ¬ Reached a.H a.req.isUpgrade (ownLocation h.lessenAll a.req.target) →
      Answered http 404 h a) (init lessenAll) acts

/-- In every run from a new connection, a request by whose own location no registered key is
reached runs no handler and is answered with the status of its method, if it is not looked up or
routed as on a new connection. -/
theorem unreached_answered {http : Http ρ} (hlaw : http.Lawful) (lessenAll : Bool)
    (acts : List (Action F A)) :
    (step http).Along (fun h act _ => ∀ a, act = .read a →
      ¬ Reached a.H a.req.isUpgrade (ownLocation h.lessenAll a.req.target) →
      (a.req.method.dispatched → h.RoutedAfresh a) →
        Answered http (unreachedStatus a.req.method) h a) (init lessenAll) acts :=
  Machine.along_iff_forall.mpr fun _ _ _ _ _ _ _ _ _ _ hr hafresh =>
    answered_of_unreached hlaw hr hafresh

theorem unreached_answered_message :
    (step Message.http).Along (fun h act _ => ∀ a, act = .read a →
      ¬ Reached a.H a.req.isUpgrade (ownLocation h.lessenAll a.req.target) →
      (a.req.method.dispatched → h.RoutedAfresh a) →
        Answered Message.http (unreachedStatus a.req.method) h a) (init false)
      [.read (getWith "/a".toList []), .written true, .read (getWith "/b".toList [])] :=
  unreached_answered Message.http_lawful false _

/-- A `HEAD` request is answered 200 before it is looked up. A target that starts with `?` is
served by the handler of the request before it. -/
theorem not_unreachedNotFound :
    ¬ UnreachedNotFound Message.http false
      [.read { getWith "/b".toList [] with req := ⟨.head, "/b".toList, 11, [], true, false, []⟩ }] ∧
    ¬ UnreachedNotFound Message.http false
      [.read (getWith "/a".toList []), .written true, .read (getWith "?x".toList [])] := by
  constructor
  · intro h
    have hr : ¬ Reached (getWith "/b".toList []).H false (ownLocation false "/b".toList) := by
      rw [← select_eq_none_iff_not_reached]
      decide
    have hanswered := Machine.along_iff_forall.mp h [] _ [] rfl _ _ rfl rfl _ rfl hr
    obtain ⟨res, hstatus, hanswer⟩ := (answered_iff _ _ _ _).mp hanswered
    cases hanswer
    revert hstatus
    decide
  · intro h
    have hempty : ownLocation false "?x".toList = [] := by decide
    have hr : ¬ Reached (getWith "?x".toList []).H false (ownLocation false "?x".toList) := by
      rw [hempty]
      exact not_reached_nil _ _
    have hanswered := Machine.along_iff_forall.mp h
      [.read (getWith "/a".toList []), .written true] (.read (getWith "?x".toList [])) [] rfl
      _ _ rfl rfl _ rfl hr
    obtain ⟨res, -, hanswer⟩ := (answered_iff _ _ _ _).mp hanswered
    cases hanswer

end Async.HttpServer

end FHT.Server
