import FHT.Server.Connection

/-!
# The connection of the asynchronous server

An `HttpServer` keeps its request, the `dataRequest` and the handler found as members, and is
driven by completion handlers: each runs to its end and starts the next asynchronous operation.
A dereference of a null pointer is `none` in the functions below.

## Main definitions

- `HttpServer` — the members of `HttpServer`, with the operation that is pending
- `HttpServer.onRead`, `onWrite`, `onAcceptWs`, `onReadWs`, `onReadWsError`
- `HttpServer.step` — the connection as a machine
-/

namespace FHT.Server.Async

/-- The asynchronous operation whose completion is waited for, or how the connection ended:
`threw` is an exception that left a completion handler. -/
inductive Pending
  | read
  | write (close : Bool)
  | accept
  | readWs
  | closed
  | failed
  | threw (e : Thrown)
  | nullDeref
  deriving DecidableEq

/-- The members `m_buffer`, `m_req`, `m_dataReq`, `m_ws` (whether it is set), `m_func`,
`m_wsSub`, `m_res` and `m_lessen_all`. -/
structure HttpServer (ρ F A : Type) where
  buffer : Str
  req : Request
  dataReq : DataRequest A
  ws : Bool
  func : Option F
  wsSub : Option WsSubscriber
  res : Option ρ
  lessenAll : Bool
  pending : Pending
  log : List (Event ρ F A)

namespace HttpServer

variable {ρ F A : Type}

/-- A new connection after `run` and the first `do_read`. -/
def init (lessenAll : Bool) : HttpServer ρ F A where
  buffer := []
  req := .empty
  dataReq := .empty
  ws := false
  func := none
  wsSub := none
  res := none
  lessenAll := lessenAll
  pending := .read
  log := []

def record (h : HttpServer ρ F A) (e : Event ρ F A) : HttpServer ρ F A :=
  { h with log := h.log ++ [e] }

/-- `m_ws->`. -/
def useWs (h : HttpServer ρ F A) : Option (HttpServer ρ F A) := if h.ws then some h else none

/-- The closure in `m_wsSub->close`. -/
def close (h : HttpServer ρ F A) (closes : Bool) : Option (HttpServer ρ F A) :=
  if h.ws then do
    let h ← h.useWs
    some (if closes then { h with ws := false } else h)
  else some h

/-- The closure in `m_wsSub->publisher`. -/
def publisher (h : HttpServer ρ F A) (str : Str) : Option (HttpServer ρ F A) :=
  if !h.ws then some h
  else do
    let h ← h.useWs
    let h ← h.useWs
    some (h.record (.published str))

/-- One call on the `wsSubscriber`. -/
def userOp (h : HttpServer ρ F A) : UserOp → Option (HttpServer ρ F A)
  | .stop closes => h.close closes
  | .getPublisher str => h.publisher str
  | .setSubscriber functor =>
    some { h with wsSub := h.wsSub.map fun w => { w with subscriber := functor } }
  | .setDeleter functor =>
    some { h with wsSub := h.wsSub.map fun w => { w with deleter := functor } }

def userOps (h : HttpServer ρ F A) (ops : List UserOp) : Option (HttpServer ρ F A) :=
  ops.foldlM userOp h

/-- User code runs, and `next` follows unless it throws. -/
def callUser (h : HttpServer ρ F A) (run : UserRun)
    (next : HttpServer ρ F A → Option (HttpServer ρ F A)) : Option (HttpServer ρ F A) := do
  let h ← h.userOps run.ops
  match run.thrown with
  | some e => some { h with pending := .threw e }
  | none => next h

/-- `m_lambda(res)`. -/
def lambda (http : Http ρ) (h : HttpServer ρ F A) (res : ρ) : HttpServer ρ F A :=
  { h.record (.response res) with res := some res, pending := .write (http.needEof res) }

/-- `m_lambda` of an answer, unless putting it together threw. -/
def answer (http : Http ρ) (h : HttpServer ρ F A) : Except Thrown ρ → HttpServer ρ F A
  | .ok res => h.lambda http res
  | .error e => { h with pending := .threw e }

/-- The `try` block of `on_read` for a request that is no upgrade, with its handlers. -/
def callHandler (http : Http ρ) (h : HttpServer ρ F A) (f : F) (reply : Reply A) :
    HttpServer ρ F A :=
  let h := { h.record (.handler f h.dataReq) with dataReq := reply.dataReq }
  match reply.result with
  | .ok send => h.lambda http (http.handlerAnswer h.req send)
  | .error e => h.answer http (http.thrownAnswer h.req e)

/-- `on_read` from the parsed target on. -/
def dispatch (http : Http ρ) (h : HttpServer ρ F A) (a : Arrival F A) (uri : ParseUri) :
    HttpServer ρ F A :=
  let h := { h with dataReq := h.dataReq.withHead uri a.req }
  match a.remote with
  | none => { h with pending := .threw (.exception "remote_endpoint".toList) }
  | some info =>
    let h := { h with dataReq := h.dataReq.withPeer a.req info }
    match route a.H a.req.isUpgrade (routedLocation h.lessenAll uri) h.func with
    | none => { h with pending := .threw (.exception "out_of_range".toList) }
    | some (func, nextLocation) =>
      let h := { h with func := func, dataReq := { h.dataReq with nextLocation := nextLocation } }
      match h.func with
      | none => h.lambda http (http.notFound a.req "Unknown HTTP handler".toList)
      | some f =>
        -- `run_ws()`
        if a.req.isUpgrade then { h with ws := true, pending := .accept }
        else h.callHandler http f a.reply

/-- `on_read` without an error. -/
def onRead (http : Http ρ) (h : HttpServer ρ F A) (a : Arrival F A) : HttpServer ρ F A :=
  let h := { h with req := a.req, buffer := a.rest }
  if a.req.method ≠ .get ∧ a.req.method ≠ .post ∧ a.req.method ≠ .put ∧ a.req.method ≠ .head then
    h.lambda http (http.badRequest a.req "Unknown HTTP method".toList)
  else if a.req.method = .head then h.lambda http (http.headAnswer a.req)
  else
    match parseUrl a.req.target with
    | none => { h with pending := .threw (.exception "out_of_range".toList) }
    | some uri => h.dispatch http a uri

/-- `on_read` with an error. -/
def onReadError (h : HttpServer ρ F A) (endOfStream : Bool) : HttpServer ρ F A :=
  { h with pending := if endOfStream then .closed else .failed }

/-- `on_write`; the last case is `do_read`. -/
def onWrite (h : HttpServer ρ F A) (close ok : Bool) : HttpServer ρ F A :=
  if !ok then { h with pending := .failed }
  else if close then { h with pending := .closed }
  else { h with res := none, req := .empty, pending := .read }

def doReadWs (h : HttpServer ρ F A) : Option (HttpServer ρ F A) := do
  let h ← h.useWs
  some { h with pending := .readWs }

def onAcceptWs (h : HttpServer ρ F A) (ok : Bool) (handler : WsHandlerRun A) :
    Option (HttpServer ρ F A) :=
  if !ok then some { h with pending := .failed }
  else do
    let h := { h with
      wsSub := some ⟨false, false⟩
      dataReq := { h.dataReq with wsInstanse := some .wsSubscriber } }
    let f ← h.func
    let h := { h.record (.handler f h.dataReq) with dataReq := handler.dataReq }
    h.callUser handler.run doReadWs

/-- `on_read_ws` for a message, whose payload the read has appended to the buffer. -/
def onReadWs (h : HttpServer ρ F A) (text : Bool) (payload : Str) (run : UserRun) :
    Option (HttpServer ρ F A) :=
  let h := { h with buffer := h.buffer ++ payload }
  if h.wsSub.any WsSubscriber.subscriber then do
    let h ← h.useWs
    if text then
      (h.record (.subscriber h.buffer)).callUser run doReadWs
    else h.doReadWs
  else h.doReadWs

/-- The connection gives up its stream and its subscriber. -/
def release (h : HttpServer ρ F A) : Option (HttpServer ρ F A) :=
  some { h with wsSub := none, ws := false, pending := .failed }

/-- `on_read_ws` with an error. -/
def onReadWsError (h : HttpServer ρ F A) (run : UserRun) : Option (HttpServer ρ F A) :=
  if h.wsSub.any WsSubscriber.deleter then
    (h.record .deleter).callUser run release
  else h.release

/-- A null pointer was dereferenced on the way from `h`. -/
def orCrash (h : HttpServer ρ F A) (h' : Option (HttpServer ρ F A)) : HttpServer ρ F A :=
  h'.getD { h with pending := .nullDeref }

/-- User code gets at the `wsSubscriber` between two reads. -/
def step (http : Http ρ) : Machine (HttpServer ρ F A) (Action F A) :=
  fun h a =>
    match h.pending, a with
    | .read, .read a => some (h.onRead http a)
    | .read, .readError endOfStream => some (h.onReadError endOfStream)
    | .write close, .written ok => some (h.onWrite close ok)
    | .accept, .accepted ok handler => some (h.orCrash (h.onAcceptWs ok handler))
    | .readWs, .message text payload run => some (h.orCrash (h.onReadWs text payload run))
    | .readWs, .wsError run => some (h.orCrash (h.onReadWsError run))
    | .readWs, .user op => some (h.orCrash (h.userOp op))
    | _, _ => none

/-- What is pending decides which completions can come. -/
theorem step_eq_some {http : Http ρ} {h t : HttpServer ρ F A} {act : Action F A}
    (hstep : step http h act = some t) :
    match act with
    | .read a => h.pending = .read ∧ t = h.onRead http a
    | .readError endOfStream => h.pending = .read ∧ t = h.onReadError endOfStream
    | .written ok => ∃ close, h.pending = .write close ∧ t = h.onWrite close ok
    | .accepted ok handler => h.pending = .accept ∧ t = h.orCrash (h.onAcceptWs ok handler)
    | .message text payload run =>
      h.pending = .readWs ∧ t = h.orCrash (h.onReadWs text payload run)
    | .wsError run => h.pending = .readWs ∧ t = h.orCrash (h.onReadWsError run)
    | .user op => h.pending = .readWs ∧ t = h.orCrash (h.userOp op) := by
  unfold step at hstep
  split at hstep
  case h_3 close ok hp _ => exact ⟨close, hp, (Option.some.inj hstep).symm⟩
  case h_8 => cases hstep
  all_goals exact ⟨by assumption, (Option.some.inj hstep).symm⟩

/-- `on_accept_ws` calls the handler and reads. -/
theorem onAcceptWs_calls {h : HttpServer ρ F A} {f : F} (hf : h.func = some f)
    (handler : WsHandlerRun A) :
    ∃ (u : HttpServer ρ F A) (d : DataRequest A),
      h.onAcceptWs true handler = u.callUser handler.run doReadWs ∧ u.ws = h.ws ∧
        u.log = h.log ++ [.handler f d] ∧ u.lessenAll = h.lessenAll := by
  have heq : h.onAcceptWs true handler =
      ({ (h.record (.handler f { h.dataReq with wsInstanse := some .wsSubscriber })) with
        wsSub := some ⟨false, false⟩
        dataReq := handler.dataReq }).callUser handler.run doReadWs := by
    simp [onAcceptWs, hf, record]
  exact ⟨_, _, heq, rfl, rfl, rfl⟩

/-- Whether `on_read_ws` calls the subscriber, if the stream is set. -/
def calls (h : HttpServer ρ F A) (text : Bool) : Bool :=
  h.wsSub.any WsSubscriber.subscriber && text

theorem onReadWs_calls {h : HttpServer ρ F A} {text : Bool} (hcalls : h.calls text = true)
    (hws : h.ws = true) (payload : Str) (run : UserRun) :
    ∃ u : HttpServer ρ F A, h.onReadWs text payload run = u.callUser run doReadWs ∧ u.ws = h.ws ∧
      u.log = h.log ++ [.subscriber (h.buffer ++ payload)] ∧ u.lessenAll = h.lessenAll := by
  obtain ⟨hsub, htext⟩ := Bool.and_eq_true_iff.mp hcalls
  have heq : h.onReadWs text payload run =
      ({ h with buffer := h.buffer ++ payload }.record
        (.subscriber (h.buffer ++ payload))).callUser run doReadWs := by
    simp [onReadWs, hsub, htext, useWs, hws]
  exact ⟨_, heq, rfl, rfl, rfl⟩

theorem onReadWs_of_not_calls {h : HttpServer ρ F A} {text : Bool} (hcalls : h.calls text = false)
    (payload : Str) (run : UserRun) :
    h.onReadWs text payload run = { h with buffer := h.buffer ++ payload }.doReadWs := by
  rw [onReadWs]
  cases hsub : h.wsSub.any WsSubscriber.subscriber with
  | false => rfl
  | true =>
    obtain rfl : text = false := by simpa [calls, hsub] using hcalls
    cases hws : h.ws <;> simp [doReadWs, useWs]

theorem onReadWs_of_released {h : HttpServer ρ F A} (hws : h.ws = false) (text : Bool)
    (payload : Str) (run : UserRun) : h.onReadWs text payload run = none := by
  rw [onReadWs]
  split <;> simp [doReadWs, useWs, hws]

end HttpServer

end FHT.Server.Async
