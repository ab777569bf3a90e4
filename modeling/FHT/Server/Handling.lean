import FHT.Server.Async
import FHT.Server.Coro

/-!
# The handling of a request

What becomes of a request is decided by the `dataRequest` and the handler that the server
starts from: the members of an `HttpServer`, which may be left over from earlier requests, or
the new locals of a `session`. `handling` is the decision; both servers follow it.

## Main results

- `ownLocation_eq` — a request is routed by what stands before the `?` of its target
- `Async.HttpServer.onRead_follows`, `Coro.Session.onRead_follows`
-/

namespace FHT.Server

variable {ρ F A : Type}

/-- What becomes of a request: an answer without a handler, a call of a handler and the answer
made of its reply, an upgrade for a handler, or an exception. -/
inductive Handling (ρ F A : Type)
  | answer (res : ρ)
  | call (f : F) (dataReq : DataRequest A) (reply : Reply A)
  | upgrade (f : F)
  | throw (e : Thrown)

/-- The target as `parseUrl` splits it. -/
def parsed (target : Str) : ParseUri := (parseUrl target).getD ⟨[], ∅⟩

theorem parseUrl_eq_parsed (target : Str) : parseUrl target = some (parsed target) := by
  obtain ⟨uri, huri, _⟩ := parseUrl_location target
  rw [parsed, huri, Option.getD_some]

/-- The location that a server with this flag routes a target by. -/
def ownLocation (lessenAll : Bool) (target : Str) : Str :=
  routedLocation lessenAll (parsed target)

theorem ownLocation_eq (lessenAll : Bool) (target : Str) :
    ownLocation lessenAll target = if lessenAll then "head".toList else location target := by
  obtain ⟨uri, huri, hloc⟩ := parseUrl_location target
  rw [ownLocation, routedLocation, parsed, huri, Option.getD_some, hloc]

/-- `func` and `nextLocation` after the routing of `a`, where `func` was left before. -/
def routing (lessenAll : Bool) (func : Option F) (a : Arrival F A) : Option F × Str :=
  let L := ownLocation lessenAll a.req.target
  if L = [] then (func, ['.']) else routed L (select a.H a.req.isUpgrade L L.length)

theorem route_routing (lessenAll : Bool) (func : Option F) (a : Arrival F A) :
    route a.H a.req.isUpgrade (routedLocation lessenAll (parsed a.req.target)) func =
      some (routing lessenAll func a) := route_eq ..

/-- The `dataRequest` for the handler, filled in over what `d` held before. -/
def DataRequest.fill (d : DataRequest A) (a : Arrival F A) (info : Endpoint)
    (nextLocation : Str) : DataRequest A :=
  { (d.withHead (parsed a.req.target) a.req).withPeer a.req info with
    nextLocation := nextLocation }

def handling (http : Http ρ) (lessenAll : Bool) (d : DataRequest A) (func : Option F)
    (a : Arrival F A) : Handling ρ F A :=
  if a.req.method.dispatched then
    match a.remote with
    | none => .throw (.exception "remote_endpoint".toList)
    | some info =>
      match routing lessenAll func a with
      | (none, _) => .answer (http.notFound a.req "Unknown HTTP handler".toList)
      | (some f, nextLocation) =>
        if a.req.isUpgrade then .upgrade f
        else .call f (d.fill a info nextLocation) a.reply
  else if a.req.method = .head then .answer (http.headAnswer a.req)
  else .answer (http.badRequest a.req "Unknown HTTP method".toList)

/-- A handler that is registered for a plain request is called. -/
theorem handling_of_reached (http : Http ρ) {lessenAll : Bool} {a : Arrival F A} {info : Endpoint}
    (hm : a.req.method.dispatched) (hinfo : a.remote = some info)
    (hup : a.req.isUpgrade = false) (hr : Reached a.H false (ownLocation lessenAll a.req.target))
    (d : DataRequest A) (func : Option F) :
    ∃ f nextLocation,
      handling http lessenAll d func a = .call f (d.fill a info nextLocation) a.reply := by
  have hL : ownLocation lessenAll a.req.target ≠ [] := by
    intro hnil
    rw [hnil] at hr
    exact not_reached_nil _ _ hr
  have hs : select a.H false (ownLocation lessenAll a.req.target)
      (ownLocation lessenAll a.req.target).length ≠ none := fun hnone =>
    (select_eq_none_iff_not_reached a.H false _).mp hnone hr
  obtain ⟨⟨f, i⟩, hselect⟩ := Option.ne_none_iff_exists'.mp hs
  refine ⟨f, '.' :: (ownLocation lessenAll a.req.target).drop i, ?_⟩
  simp [handling, hm, hinfo, routing, hup, hL, hselect, routed]

/-- Whether the handler throws. -/
def Reply.throws (reply : Reply A) : Bool :=
  match reply.result with
  | .ok _ => false
  | .error _ => true

/-- The answer made of a handler's reply, if none of the `catch` clauses throws. -/
def replyAnswer (http : Http ρ) (req : Request) (reply : Reply A) : Except Thrown ρ :=
  match reply.result with
  | .ok send => .ok (http.handlerAnswer req send)
  | .error e => http.thrownAnswer req e

/-- No answer is made of a handler's reply exactly if it throws a null pointer. -/
theorem replyAnswer_eq_error_iff (http : Http ρ) (req : Request) (reply : Reply A) (e : Thrown) :
    replyAnswer http req reply = .error e ↔
      reply.result = .error .nullCString ∧ e = .nullString := by
  rw [replyAnswer]
  cases reply.result with
  | ok send => simp
  | error e' => simpa using http.thrownAnswer_eq_error_iff req e' e

/-- The answer that the handling gives at once. -/
def Handling.response (http : Http ρ) (req : Request) : Handling ρ F A → Option ρ
  | .answer res => some res
  | .call _ _ reply => (replyAnswer http req reply).toOption
  | .upgrade _ | .throw _ => none

/-- The call in the handling of a request. -/
def Handling.called : Handling ρ F A → Option (F × DataRequest A)
  | .call f d _ => some (f, d)
  | .answer _ | .upgrade _ | .throw _ => none

/-- The events of the handling: the call, and the answer. -/
def Handling.events (http : Http ρ) (req : Request) (d : Handling ρ F A) : List (Event ρ F A) :=
  d.called.toList.map (fun p => .handler p.1 p.2) ++
    (d.response http req).toList.map .response

/-- A plain request calls a handler: a key is reached, or the location is empty and the server
holds a handler, `left`, from before. -/
def CallsHandler (lessenAll : Bool) (left : Option F) (a : Arrival F A) : Prop :=
  a.req.method.dispatched ∧ a.req.isUpgrade = false ∧
    (Reached a.H false (ownLocation lessenAll a.req.target) ∨
      ownLocation lessenAll a.req.target = [] ∧ left ≠ none)

/-- The handler that a plain request calls throws a null `const char*`. -/
def ThrowsNull (lessenAll : Bool) (left : Option F) (a : Arrival F A) : Prop :=
  CallsHandler lessenAll left a ∧ a.reply.result = .error .nullCString

/-- A request that is no upgrade, of a client that is still there, calls a handler or is answered
without one. -/
theorem handling_cases (http : Http ρ) (lessenAll : Bool) (d : DataRequest A) (func : Option F)
    {a : Arrival F A} (hup : a.req.isUpgrade = false) (hremote : a.remote ≠ none) :
    (CallsHandler lessenAll func a ∧
      ∃ f d', handling http lessenAll d func a = .call f d' a.reply) ∨
    (¬ CallsHandler lessenAll func a ∧ ∃ res, handling http lessenAll d func a = .answer res) := by
  obtain ⟨info, hinfo⟩ := Option.ne_none_iff_exists'.mp hremote
  unfold CallsHandler handling
  rw [hinfo]
  cases a.req.method.dispatched with
  | false =>
    refine .inr ⟨by simp, ?_⟩
    by_cases hhead : a.req.method = .head
    · exact ⟨_, by simp only [hhead]; rfl⟩
    · exact ⟨_, by simp only [hhead]; rfl⟩
  | true =>
    simp only [if_true, hup, Bool.false_eq_true, if_false, true_and, routing]
    by_cases hL : ownLocation lessenAll a.req.target = []
    · simp only [hL, if_true, not_reached_nil]
      cases func <;> simp
    · simp only [hL, if_false]
      cases hs : select a.H false (ownLocation lessenAll a.req.target)
          (ownLocation lessenAll a.req.target).length with
      | none =>
        have hnot := (select_eq_none_iff_not_reached a.H false _).mp hs
        simp [routed, hnot]
      | some p => simp [routed, reached_of_select a.H false hs]

/-- Such a request is answered at once unless its handler throws a null pointer. -/
theorem response_eq_none_iff (http : Http ρ) (lessenAll : Bool) (d : DataRequest A)
    (func : Option F) {a : Arrival F A} (hup : a.req.isUpgrade = false)
    (hremote : a.remote ≠ none) :
    (handling http lessenAll d func a).response http a.req = none ↔
      ThrowsNull lessenAll func a := by
  rcases handling_cases http lessenAll d func hup hremote with ⟨hcalls, f, d', hd⟩ |
    ⟨hcalls, res, hd⟩
  · rw [hd, ThrowsNull, and_iff_right hcalls, Handling.response]
    constructor
    · intro h
      cases hanswer : replyAnswer http a.req a.reply with
      | ok res => simp [hanswer, Except.toOption] at h
      | error e => exact ((replyAnswer_eq_error_iff ..).mp hanswer).1
    · intro h
      rw [(replyAnswer_eq_error_iff ..).mpr ⟨h, rfl⟩]
      rfl
  · rw [hd]
    exact iff_of_false (by simp [Handling.response]) fun h => hcalls h.1

namespace Async.HttpServer

/-- The operation that the asynchronous server starts after the handling. -/
def follows (http : Http ρ) (req : Request) : Handling ρ F A → Pending
  | .answer res => .write (http.needEof res)
  | .call _ _ reply =>
    match replyAnswer http req reply with
    | .ok res => .write (http.needEof res)
    | .error e => .threw e
  | .upgrade _ => .accept
  | .throw e => .threw e

/-- No request goes to a WebSocket read at once. -/
theorem follows_ne_readWs (http : Http ρ) (req : Request) (d : Handling ρ F A) :
    follows http req d ≠ .readWs := by
  cases d with
  | call f d reply =>
    rw [follows]
    cases replyAnswer http req reply <;> nofun
  | answer | upgrade | throw => nofun

theorem callHandler_eq (http : Http ρ) (h : HttpServer ρ F A) (f : F) (reply : Reply A) :
    h.callHandler http f reply =
      ({ h.record (.handler f h.dataReq) with dataReq := reply.dataReq }).answer http
        (replyAnswer http h.req reply) := by
  unfold callHandler replyAnswer
  cases reply.result <;> rfl

theorem dispatch_follows (http : Http ρ) (h : HttpServer ρ F A) (a : Arrival F A)
    (hreq : h.req = a.req) (hm : a.req.method.dispatched) :
    let d := handling http h.lessenAll h.dataReq h.func a
    let h' := h.dispatch http a (parsed a.req.target)
    h'.log = h.log ++ d.events http a.req ∧ h'.pending = follows http a.req d ∧
      h'.lessenAll = h.lessenAll := by
  unfold dispatch handling
  simp only [hm, if_true]
  cases a.remote with
  | none => simp [Handling.events, Handling.called, Handling.response, follows]
  | some info =>
    simp only [route_routing]
    rcases routing h.lessenAll h.func a with ⟨_ | f, nextLocation⟩
    · exact ⟨rfl, rfl, rfl⟩
    · dsimp only
      split
      · simp [Handling.events, Handling.called, Handling.response, follows]
      · rw [callHandler_eq, ← hreq]
        simp only [Handling.events, Handling.called, Handling.response, follows]
        cases replyAnswer http h.req a.reply <;>
          simp [answer, lambda, record, DataRequest.fill, hreq, Except.toOption]

theorem onRead_eq_dispatch (http : Http ρ) (h : HttpServer ρ F A) {a : Arrival F A}
    (hm : a.req.method.dispatched) : h.onRead http a =
      dispatch http { h with req := a.req, buffer := a.rest } a (parsed a.req.target) := by
  rw [onRead, parseUrl_eq_parsed]
  cases hv : a.req.method <;> simp [hv, Verb.dispatched] at hm ⊢

/-- `on_read` does what the handling says, from the members as they are. -/
theorem onRead_follows (http : Http ρ) (h : HttpServer ρ F A) (a : Arrival F A) :
    let d := handling http h.lessenAll h.dataReq h.func a
    let h' := h.onRead http a
    h'.log = h.log ++ d.events http a.req ∧ h'.pending = follows http a.req d ∧
      h'.lessenAll = h.lessenAll := by
  cases hm : a.req.method.dispatched with
  | true =>
    rw [onRead_eq_dispatch http h hm]
    exact dispatch_follows http { h with req := a.req, buffer := a.rest } a rfl hm
  | false =>
    unfold onRead handling
    cases hv : a.req.method <;> simp [hv, Verb.dispatched] at hm
    · simp [Verb.dispatched, Handling.events, Handling.called, Handling.response, follows, lambda,
        record]
    · simp [Verb.dispatched, Handling.events, Handling.called, Handling.response, follows, lambda,
        record]

end Async.HttpServer

namespace Coro.Session

/-- Where the session suspends after the handling: only the answer made of what a handler
returns is not in a `return`. -/
def follows (http : Http ρ) (req : Request) : Handling ρ F A → Pending
  | .answer _ => .write true
  | .call _ _ reply =>
    match replyAnswer http req reply with
    | .ok _ => .write reply.throws
    | .error e => .threw e
  | .upgrade _ => .accept
  | .throw e => .threw e

theorem follows_ne_readWs (http : Http ρ) (req : Request) (d : Handling ρ F A) :
    follows http req d ≠ .readWs := by
  cases d with
  | call f d reply =>
    rw [follows]
    cases replyAnswer http req reply <;> nofun
  | answer | upgrade | throw => nofun

theorem callHandler_eq (http : Http ρ) (s : Session ρ F A) (f : F) (reply : Reply A) :
    s.callHandler http f reply =
      ({ s.record (.handler f s.dataReq) with dataReq := reply.dataReq }).answer http
        reply.throws (replyAnswer http s.req reply) := by
  unfold callHandler replyAnswer Reply.throws
  cases reply.result <;> rfl

theorem dispatch_follows (http : Http ρ) (s : Session ρ F A) (a : Arrival F A)
    (hreq : s.req = a.req) (hm : a.req.method.dispatched) :
    let d := handling http s.lessenAll .empty none a
    let s' := s.dispatch http a (parsed a.req.target)
    s'.log = s.log ++ d.events http a.req ∧ s'.pending = follows http a.req d ∧
      s'.lessenAll = s.lessenAll ∧ ∀ res ∈ d.response http a.req, s'.close = http.needEof res := by
  unfold dispatch handling
  simp only [hm, if_true]
  cases a.remote with
  | none => simp [Handling.events, Handling.called, Handling.response, follows]
  | some info =>
    simp only [route_routing]
    rcases routing s.lessenAll none a with ⟨_ | f, nextLocation⟩
    · simp [Handling.events, Handling.called, Handling.response, follows, lambda, record]
    · dsimp only
      split
      · simp [Handling.events, Handling.called, Handling.response, follows]
      · rw [callHandler_eq, ← hreq]
        simp only [Handling.events, Handling.called, Handling.response, follows]
        cases replyAnswer http s.req a.reply <;>
          simp [answer, lambda, record, DataRequest.fill, hreq, Except.toOption]

theorem onRead_eq_dispatch (http : Http ρ) (s : Session ρ F A) {a : Arrival F A}
    (hm : a.req.method.dispatched) : s.onRead http a =
      dispatch http { s with req := a.req, buffer := a.rest } a (parsed a.req.target) := by
  rw [onRead, parseUrl_eq_parsed]
  cases hv : a.req.method <;> simp [hv, Verb.dispatched] at hm ⊢

/-- A pass of the loop does what the handling says, from new locals. -/
theorem onRead_follows (http : Http ρ) (s : Session ρ F A) (a : Arrival F A) :
    let d := handling http s.lessenAll .empty none a
    let s' := s.onRead http a
    s'.log = s.log ++ d.events http a.req ∧ s'.pending = follows http a.req d ∧
      s'.lessenAll = s.lessenAll ∧ ∀ res ∈ d.response http a.req, s'.close = http.needEof res := by
  cases hm : a.req.method.dispatched with
  | true =>
    rw [onRead_eq_dispatch http s hm]
    exact dispatch_follows http { s with req := a.req, buffer := a.rest } a rfl hm
  | false =>
    unfold onRead handling
    cases hv : a.req.method <;> simp [hv, Verb.dispatched] at hm
    · simp [Verb.dispatched, Handling.events, Handling.called, Handling.response, follows, lambda,
        record]
    · simp [Verb.dispatched, Handling.events, Handling.called, Handling.response, follows, lambda,
        record]

end Coro.Session

/-- A request for `target` with one header, from a client that keeps the connection open. The
handler of `/a` answers it with an empty body and leaves the `dataRequest` as it is. -/
def getWith (target value : Str) : Arrival Nat Unit where
  req := ⟨.get, target, 11, [("X".toList, value)], true, false, []⟩
  rest := []
  H := StdMap.emplace ∅ "/a".toList 0
  remote := some ⟨"127.0.0.1".toList, 4000⟩
  reply :=
    { dataReq := ⟨∅, StdMap.emplace ∅ "X".toList value, target, ".".toList,
        "127.0.0.1".toList, 4000, [], none⟩
      result := .ok ⟨[], ∅, []⟩ }

/-- An upgrade request for the WebSocket handler of `/a`, which is called only later. -/
def upgradeA : Arrival Nat Unit where
  req := ⟨.get, "/a".toList, 11, [], true, true, []⟩
  rest := []
  H := StdMap.emplace ∅ (webSocket "/a".toList) 0
  remote := some ⟨"127.0.0.1".toList, 4000⟩
  reply := ⟨.empty, .ok ⟨[], ∅, []⟩⟩

end FHT.Server
