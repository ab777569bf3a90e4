import FHT.Server.Connection

/-!
# The connection of the coroutine server

A `session` is one function with a loop; it suspends where it reads, writes or accepts. The
request, the `dataRequest` and the handler found are locals of one pass of the loop. Exceptions
of user code are caught around the WebSocket loop as well, and answered.

## Main definitions

- `Session` — the locals of `session`, with the operation it is suspended in
- `Session.step` — the session as a machine, over the actions of the asynchronous server
-/

namespace FHT.Server.Coro

/-- Where the session is suspended. In `write` it is in `lambda(…)`, either in a
`return lambda(…)` or before the test of `close`. `threw` is an exception that left it. -/
inductive Pending
  | read
  | write (returns : Bool)
  | accept
  | readWs
  | ended
  | threw (e : Thrown)
  deriving DecidableEq

/-- The locals of `session`. `closeWs` is whether the copy of `ws` in the closure of `stop` is
still set; the other copies stay set until the session ends. -/
structure Session (ρ F A : Type) where
  buffer : Str
  close : Bool
  req : Request
  dataReq : DataRequest A
  func : Option F
  wsSub : Option WsSubscriber
  closeWs : Bool
  lessenAll : Bool
  pending : Pending
  log : List (Event ρ F A)

namespace Session

variable {ρ F A : Type}

/-- A new connection before its first read. -/
def init (lessenAll : Bool) : Session ρ F A where
  buffer := []
  close := false
  req := .empty
  dataReq := .empty
  func := none
  wsSub := none
  closeWs := false
  lessenAll := lessenAll
  pending := .read
  log := []

def record (s : Session ρ F A) (e : Event ρ F A) : Session ρ F A :=
  { s with log := s.log ++ [e] }

/-- One call on the `wsSubscriber`; its `publisher` writes to the stream it holds. -/
def userOp (s : Session ρ F A) : UserOp → Session ρ F A
  | .stop closes => if s.closeWs && closes then { s with closeWs := false } else s
  | .getPublisher str => s.record (.published str)
  | .setSubscriber functor =>
    { s with wsSub := s.wsSub.map fun w => { w with subscriber := functor } }
  | .setDeleter functor =>
    { s with wsSub := s.wsSub.map fun w => { w with deleter := functor } }

def userOps (s : Session ρ F A) (ops : List UserOp) : Session ρ F A := ops.foldl userOp s

/-- `lambda(res)`, in a `return` or not. -/
def lambda (http : Http ρ) (s : Session ρ F A) (returns : Bool) (res : ρ) : Session ρ F A :=
  { s.record (.response res) with close := http.needEof res, pending := .write returns }

/-- `lambda` of an answer, in a `return` or not, unless putting it together threw. -/
def answer (http : Http ρ) (s : Session ρ F A) (returns : Bool) :
    Except Thrown ρ → Session ρ F A
  | .ok res => s.lambda http returns res
  | .error e => { s with pending := .threw e }

/-- User code runs inside the `try` block, and `next` follows unless it throws. -/
def callUser (http : Http ρ) (s : Session ρ F A) (run : UserRun)
    (next : Session ρ F A → Session ρ F A) : Session ρ F A :=
  let s := s.userOps run.ops
  match run.thrown with
  | some e => s.answer http true (http.thrownAnswer s.req e)
  | none => next s

def callHandler (http : Http ρ) (s : Session ρ F A) (f : F) (reply : Reply A) :
    Session ρ F A :=
  let s := { s.record (.handler f s.dataReq) with dataReq := reply.dataReq }
  match reply.result with
  | .ok send => s.lambda http false (http.handlerAnswer s.req send)
  | .error e => s.answer http true (http.thrownAnswer s.req e)

/-- One pass of the loop from the parsed target on. -/
def dispatch (http : Http ρ) (s : Session ρ F A) (a : Arrival F A) (uri : ParseUri) :
    Session ρ F A :=
  let s := { s with dataReq := DataRequest.empty.withHead uri a.req, func := none }
  match a.remote with
  | none => { s with pending := .threw (.exception "remote_endpoint".toList) }
  | some info =>
    let s := { s with dataReq := s.dataReq.withPeer a.req info }
    match route a.H a.req.isUpgrade (routedLocation s.lessenAll uri) s.func with
    | none => { s with pending := .threw (.exception "out_of_range".toList) }
    | some (func, nextLocation) =>
      let s := { s with func := func, dataReq := { s.dataReq with nextLocation := nextLocation } }
      match s.func with
      | none => s.lambda http true (http.notFound a.req "Unknown HTTP handler".toList)
      | some f =>
        if a.req.isUpgrade then { s with wsSub := some ⟨false, false⟩, pending := .accept }
        else s.callHandler http f a.reply

/-- One pass of the loop. -/
def onRead (http : Http ρ) (s : Session ρ F A) (a : Arrival F A) : Session ρ F A :=
  let s := { s with req := a.req, buffer := a.rest }
  if a.req.method ≠ .get ∧ a.req.method ≠ .post ∧ a.req.method ≠ .put ∧ a.req.method ≠ .head then
    s.lambda http true (http.badRequest a.req "Unknown HTTP method".toList)
  else if a.req.method = .head then s.lambda http true (http.headAnswer a.req)
  else
    match parseUrl a.req.target with
    | none => { s with pending := .threw (.exception "out_of_range".toList) }
    | some uri => s.dispatch http a uri

/-- After the write: `return`, or the tests of `ec` and `close` at the end of the loop. -/
def onWrite (s : Session ρ F A) (returns ok : Bool) : Session ρ F A :=
  if returns then { s with pending := .ended }
  else if !ok then { s with pending := .ended }
  else if s.close then { s with pending := .ended }
  else { s with pending := .read }

/-- After `async_accept`, which throws if it fails. -/
def onAcceptWs (http : Http ρ) (s : Session ρ F A) (ok : Bool) (handler : WsHandlerRun A) :
    Session ρ F A :=
  if !ok then s.answer http true (http.thrownAnswer s.req (.exception "accept".toList))
  else
    match s.func with
    | none => s
    | some f =>
      let s := { s with
        closeWs := true
        dataReq := { s.dataReq with wsInstanse := some .wsSubscriber } }
      let s := { s.record (.handler f s.dataReq) with dataReq := handler.dataReq }
      s.callUser http handler.run fun s => { s with pending := .readWs }

/-- One pass of the WebSocket loop for a message: the buffer is a new one. -/
def onReadWs (http : Http ρ) (s : Session ρ F A) (text : Bool) (payload : Str) (run : UserRun) :
    Session ρ F A :=
  if s.wsSub.any WsSubscriber.subscriber then
    if text then (s.record (.subscriber payload)).callUser http run id
    else s
  else s

def release (s : Session ρ F A) : Session ρ F A := { s with wsSub := none, pending := .ended }

/-- The WebSocket loop ends: the deleter is called, and the session returns. -/
def onReadWsError (http : Http ρ) (s : Session ρ F A) (run : UserRun) : Session ρ F A :=
  if s.wsSub.any WsSubscriber.deleter then
    (s.record .deleter).callUser http run release
  else s.release

def step (http : Http ρ) : Machine (Session ρ F A) (Action F A) :=
  fun s a =>
    match s.pending, a with
    | .read, .read a => some (s.onRead http a)
    | .read, .readError _ => some { s with pending := .ended }
    | .write returns, .written ok => some (s.onWrite returns ok)
    | .accept, .accepted ok handler => some (s.onAcceptWs http ok handler)
    | .readWs, .message text payload run => some (s.onReadWs http text payload run)
    | .readWs, .wsError run => some (s.onReadWsError http run)
    | .readWs, .user op => some (s.userOp op)
    | _, _ => none

/-- Where the session is suspended decides which completions can come. -/
theorem step_eq_some {http : Http ρ} {s t : Session ρ F A} {act : Action F A}
    (hstep : step http s act = some t) :
    match act with
    | .read a => s.pending = .read ∧ t = s.onRead http a
    | .readError _ => s.pending = .read ∧ t = { s with pending := .ended }
    | .written ok => ∃ returns, s.pending = .write returns ∧ t = s.onWrite returns ok
    | .accepted ok handler => s.pending = .accept ∧ t = s.onAcceptWs http ok handler
    | .message text payload run =>
      s.pending = .readWs ∧ t = s.onReadWs http text payload run
    | .wsError run => s.pending = .readWs ∧ t = s.onReadWsError http run
    | .user op => s.pending = .readWs ∧ t = s.userOp op := by
  unfold step at hstep
  split at hstep
  case h_3 returns ok hp _ => exact ⟨returns, hp, (Option.some.inj hstep).symm⟩
  case h_8 => cases hstep
  all_goals exact ⟨by assumption, (Option.some.inj hstep).symm⟩

/-- After a write the session returns or reads the next request. -/
theorem onWrite_eq (s : Session ρ F A) (returns ok : Bool) :
    ∃ pending, (pending = .ended ∨ pending = .read) ∧
      s.onWrite returns ok = { s with pending := pending } := by
  unfold onWrite
  split_ifs
  · exact ⟨_, .inl rfl, rfl⟩
  · exact ⟨_, .inl rfl, rfl⟩
  · exact ⟨_, .inl rfl, rfl⟩
  · exact ⟨_, .inr rfl, rfl⟩

end Session

end FHT.Server.Coro
