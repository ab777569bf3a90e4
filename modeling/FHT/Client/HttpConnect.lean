import FHT.Client.Params

/-!
# The connection of the client

Both builds resolve, connect, shake hands on a TLS stream, write the request, read the response
and shut the stream down. The first stage that reports an error ends the connection with a
failure response; the response that was read is passed on before the shutdown. What the library
calls report is a parameter.

## Main results

- `Async.callbacks_run`, `Coro.callbacks_run` — the callbacks of one connection
- `Async.written_run`, `Coro.written_run` — it writes nothing but the request that was built
-/

namespace FHT.Client

open FHT.Server (Verb)

/-- A `beast::error_code`: no error, `net::error::eof`, or another error with its message. -/
inductive ErrorCode
  | success
  | eof
  | error (message : Str)
  deriving DecidableEq

namespace ErrorCode

def isError : ErrorCode → Bool
  | success => false
  | eof | error _ => true

def message : ErrorCode → Str
  | success => "Success".toList
  | eof => "End of file".toList
  | error message => message

/-- `if (ec == net::error::eof) ec = {}`. -/
def ignoreEof (ec : ErrorCode) : ErrorCode := if ec = eof then success else ec

end ErrorCode

/-- The template parameter of `httpConnect`: `tcp_stream` or `ssl_stream<tcp_stream>`. -/
inductive Stream
  | tcp
  | ssl
  deriving DecidableEq

/-- The `http::response` that was read: `base` are its fields. -/
structure Response where
  resultInt : Nat
  base : List (Str × Str)
  body : Str

/-- The requests `ρ` of the HTTP library. As for responses, the names and values that `set` is given
are assumed to fit into the 16-bit sizes of the library. -/
structure HttpRequest (ρ : Type) where
  request (type : Verb) (uri : Str) (version : Nat) : ρ
  set (req : ρ) (name value : Str) : ρ
  setBody (req : ρ) (body : Str) : ρ
  preparePayload (req : ρ) : ρ

/-- What each library call of one connection reports. `setHostName` is
`SSL_set_tlsext_host_name`, with the error that it leaves in the queue. -/
structure Network (ρ : Type) where
  setHostName (host : Str) : Except ErrorCode Unit
  resolve (host port : Str) : ErrorCode
  connect : ErrorCode
  handshake : ErrorCode
  write (req : ρ) : ErrorCode
  read : ErrorCode × Response
  shutdown : ErrorCode

variable {ρ : Type}

/-- The request of both builds. Only a `POST` gets the body. -/
def buildRequest (http : HttpRequest ρ) (paramParse : Params) : ρ :=
  let request := paramParse.request
  let req := http.request request.type paramParse.uri 11
  let req := if request.type = .post then http.setBody req request.body else req
  let req := http.set req "Host".toList paramParse.host
  let req := request.headers.toList.foldl (fun req a => http.set req a.1 a.2) req
  http.preparePayload req

/-- The copy of what was read. A name that occurs twice keeps its first value. -/
def Response.httpResponse (res : Response) : HttpResponse where
  status := res.resultInt
  headers := StdMap.emplaceAll ∅ res.base
  body := res.body

/-- The response that `fail` makes. -/
def failResponse (ec : ErrorCode) (what : Str) : HttpResponse where
  status := 404
  err := what ++ ": ".toList ++ ec.message

/-- What a connection has done so far: the requests it has written, and the responses it has
passed to `m_callback`. -/
structure HttpConnect (ρ : Type) where
  written : List ρ := []
  callbacks : List HttpResponse := []

namespace HttpConnect

def callback (c : HttpConnect ρ) (resp : HttpResponse) : HttpConnect ρ :=
  { c with callbacks := c.callbacks ++ [resp] }

def fail (c : HttpConnect ρ) (ec : ErrorCode) (what : Str) : HttpConnect ρ :=
  c.callback (failResponse ec what)

def write (c : HttpConnect ρ) (req : ρ) : HttpConnect ρ :=
  { c with written := c.written ++ [req] }

end HttpConnect

open HttpConnect

namespace Async

variable (S : Stream) (net : Network ρ) (req : ρ)

def onShutdown (c : HttpConnect ρ) (ec : ErrorCode) : HttpConnect ρ :=
  let ec := ec.ignoreEof
  if ec.isError then c.fail ec "shutdown".toList else c

/-- Either stream passes the error of its shutdown to `on_shutdown`. -/
def onRead (c : HttpConnect ρ) (ec : ErrorCode) (res : Response) : HttpConnect ρ :=
  if ec.isError then c.fail ec "read".toList
  else onShutdown (c.callback res.httpResponse) net.shutdown

def onWrite (c : HttpConnect ρ) (ec : ErrorCode) : HttpConnect ρ :=
  if ec.isError then c.fail ec "write".toList else onRead net c net.read.1 net.read.2

/-- `http::async_write(m_stream, m_req, …)`. -/
def asyncWrite (c : HttpConnect ρ) : HttpConnect ρ := onWrite net (c.write req) (net.write req)

def onHandshake (c : HttpConnect ρ) (ec : ErrorCode) : HttpConnect ρ :=
  if ec.isError then c.fail ec "handshake".toList else asyncWrite net req c

def onConnect (c : HttpConnect ρ) (ec : ErrorCode) : HttpConnect ρ :=
  if ec.isError then c.fail ec "connect".toList
  else
    match S with
    | .tcp => asyncWrite net req c
    | .ssl => onHandshake net req c net.handshake

def onResolve (c : HttpConnect ρ) (ec : ErrorCode) : HttpConnect ρ :=
  if ec.isError then c.fail ec "resolve".toList else onConnect S net req c net.connect

/-- A failure is only printed. -/
def checkSSL (host : Str) : Bool :=
  match S, net.setHostName host with
  | .ssl, .error _ => false
  | _, _ => true

def run (http : HttpRequest ρ) (paramParse : Params) : HttpConnect ρ :=
  if !checkSSL S net paramParse.host then {}
  else
    onResolve S net (buildRequest http paramParse) {}
      (net.resolve paramParse.host paramParse.port)

end Async

namespace Coro

variable (S : Stream) (net : Network ρ)

/-- A plain stream leaves `m_ec` as it is. -/
def asyncHandshake (ec : ErrorCode) : ErrorCode :=
  match S with
  | .tcp => ec
  | .ssl => net.handshake

/-- `m_ec` after the shutdown. -/
def asyncShutdown : ErrorCode :=
  match S with
  | .tcp => net.shutdown
  | .ssl => net.shutdown.ignoreEof

/-- A failure calls `fail`. -/
def checkSSL (c : HttpConnect ρ) (host : Str) : Bool × HttpConnect ρ :=
  match S, net.setHostName host with
  | .ssl, .error ec => (false, c.fail ec "error SSL".toList)
  | _, _ => (true, c)

/-- `run` from the write on. -/
def exchange (req : ρ) (c : HttpConnect ρ) : HttpConnect ρ :=
  let c := c.write req
  let ec := net.write req
  if ec.isError then c.fail ec "write".toList
  else
    let (ec, res) := net.read
    if ec.isError then c.fail ec "read".toList
    else
      let c := c.callback res.httpResponse
      let ec := asyncShutdown S net
      if ec.isError then c.fail ec "shutdown".toList else c

def run (http : HttpRequest ρ) (paramParse : Params) : HttpConnect ρ :=
  let (ok, c) := checkSSL S net {} paramParse.host
  if !ok then c
  else
    let ec := net.resolve paramParse.host paramParse.port
    if ec.isError then c.fail ec "resolve".toList
    else
      let ec := net.connect
      if ec.isError then c.fail ec "connm_ect".toList
      else
        let ec := asyncHandshake S net ec
        if ec.isError then c.fail ec "handshake".toList
        else exchange S net (buildRequest http paramParse) c

end Coro

/-! ### The callbacks of one connection -/

@[simp] theorem HttpConnect.callbacks_fail (c : HttpConnect ρ) (ec : ErrorCode) (what : Str) :
    (c.fail ec what).callbacks = c.callbacks ++ [failResponse ec what] := rfl

@[simp] theorem HttpConnect.callbacks_callback (c : HttpConnect ρ) (resp : HttpResponse) :
    (c.callback resp).callbacks = c.callbacks ++ [resp] := rfl

@[simp] theorem HttpConnect.callbacks_write (c : HttpConnect ρ) (req : ρ) :
    (c.write req).callbacks = c.callbacks := rfl

/-- The callbacks of a sequence of stages, each with the text of its failure and what it
reports: the first failure, or else `answered`. -/
def firstFailure (answered : List HttpResponse) : List (Str × ErrorCode) → List HttpResponse
  | [] => answered
  | (what, ec) :: rest =>
    if ec.isError then [failResponse ec what] else firstFailure answered rest

/-- The callbacks from a successful read on, where `ec` is what the shutdown reports. -/
def answered (res : Response) (ec : ErrorCode) : List HttpResponse :=
  res.httpResponse :: if ec.isError then [failResponse ec "shutdown".toList] else []

/-- The stages up to the read. -/
def stages (connect : Str) (S : Stream) (net : Network ρ) (paramParse : Params) (req : ρ) :
    List (Str × ErrorCode) :=
  ("resolve".toList, net.resolve paramParse.host paramParse.port) :: (connect, net.connect) ::
    match S with
    | .tcp => [("write".toList, net.write req), ("read".toList, net.read.1)]
    | .ssl => [("handshake".toList, net.handshake), ("write".toList, net.write req),
        ("read".toList, net.read.1)]

theorem firstFailure_of_success {l : List HttpResponse} {stages : List (Str × ErrorCode)}
    (h : ∀ s ∈ stages, s.2.isError = false) : firstFailure l stages = l := by
  induction stages with
  | nil => rfl
  | cons s stages ih =>
    obtain ⟨hs, hrest⟩ := List.forall_mem_cons.mp h
    rw [firstFailure, hs]
    exact ih hrest

theorem firstFailure_of_failure (l : List HttpResponse) {stages : List (Str × ErrorCode)}
    (h : ¬ ∀ s ∈ stages, s.2.isError = false) :
    ∃ ec what, firstFailure l stages = [failResponse ec what] := by
  induction stages with
  | nil => simp at h
  | cons s stages ih =>
    obtain ⟨what, ec⟩ := s
    rw [firstFailure]
    cases hec : ec.isError with
    | true => exact ⟨ec, what, rfl⟩
    | false => exact ih fun hrest => h (List.forall_mem_cons.mpr ⟨hec, hrest⟩)

namespace Async

variable (S : Stream) (net : Network ρ) (req : ρ) (c : HttpConnect ρ) (ec : ErrorCode)

theorem callbacks_onRead (res : Response) :
    (onRead net c ec res).callbacks =
      c.callbacks ++ firstFailure (answered res net.shutdown.ignoreEof) [("read".toList, ec)] := by
  rw [onRead, firstFailure]
  cases ec.isError with
  | true => rfl
  | false =>
    simp only [onShutdown, answered, firstFailure]
    cases net.shutdown.ignoreEof.isError with
    | true => simp
    | false => simp

theorem callbacks_asyncWrite :
    (asyncWrite net req c).callbacks =
      c.callbacks ++ firstFailure (answered net.read.2 net.shutdown.ignoreEof)
        [("write".toList, net.write req), ("read".toList, net.read.1)] := by
  rw [asyncWrite, onWrite, firstFailure]
  cases (net.write req).isError with
  | true => rfl
  | false => exact callbacks_onRead net (c.write req) net.read.1 net.read.2

theorem callbacks_onResolve (paramParse : Params) :
    (onResolve S net req c (net.resolve paramParse.host paramParse.port)).callbacks =
      c.callbacks ++ firstFailure (answered net.read.2 net.shutdown.ignoreEof)
        (stages "connect".toList S net paramParse req) := by
  rw [onResolve, stages.eq_def, firstFailure]
  cases (net.resolve paramParse.host paramParse.port).isError with
  | true => rfl
  | false =>
    simp only [onConnect, firstFailure]
    cases net.connect.isError with
    | true => rfl
    | false =>
      cases S with
      | tcp => exact callbacks_asyncWrite net req c
      | ssl =>
        simp only [onHandshake, firstFailure]
        cases net.handshake.isError with
        | true => rfl
        | false => exact callbacks_asyncWrite net req c

/-- The asynchronous build passes on the first failing stage, or the answer and then a failure
of the shutdown. If the host name cannot be set it calls nothing. -/
theorem callbacks_run (http : HttpRequest ρ) (paramParse : Params) :
    (run S net http paramParse).callbacks =
      if checkSSL S net paramParse.host then
        firstFailure (answered net.read.2 net.shutdown.ignoreEof)
          (stages "connect".toList S net paramParse (buildRequest http paramParse))
      else [] := by
  rw [run]
  cases checkSSL S net paramParse.host with
  | false => rfl
  | true => exact callbacks_onResolve S net _ {} paramParse

end Async

namespace Coro

variable (S : Stream) (net : Network ρ)

theorem callbacks_exchange (req : ρ) (c : HttpConnect ρ) :
    (exchange S net req c).callbacks =
      c.callbacks ++ firstFailure (answered net.read.2 (asyncShutdown S net))
        [("write".toList, net.write req), ("read".toList, net.read.1)] := by
  rw [exchange, firstFailure]
  cases (net.write req).isError with
  | true => rfl
  | false =>
    simp only [answered, firstFailure]
    cases net.read.1.isError with
    | true => rfl
    | false =>
      cases (asyncShutdown S net).isError with
      | true => simp
      | false => simp

/-- Once the host name is set, the coroutine build passes on the first failing stage, or the
answer and then a failure of the shutdown. -/
theorem callbacks_run (http : HttpRequest ρ) {paramParse : Params}
    (hname : S = .ssl → net.setHostName paramParse.host = .ok ()) :
    (run S net http paramParse).callbacks =
      firstFailure (answered net.read.2 (asyncShutdown S net))
        (stages "connm_ect".toList S net paramParse (buildRequest http paramParse)) := by
  have hssl : checkSSL S net {} paramParse.host = (true, {}) := by
    cases S with
    | tcp => rfl
    | ssl => rw [checkSSL.eq_def, hname rfl]
  simp only [run, hssl, stages, firstFailure]
  cases (net.resolve paramParse.host paramParse.port).isError with
  | true => rfl
  | false =>
    cases hconnect : net.connect.isError with
    | true => rfl
    | false =>
      cases S with
      | tcp =>
        -- `m_ec` is still what the connect has set
        simp only [asyncHandshake, hconnect]
        exact callbacks_exchange .tcp net _ {}
      | ssl =>
        rw [firstFailure]
        cases hhandshake : net.handshake.isError with
        | true =>
          simp only [asyncHandshake, hhandshake]
          rfl
        | false =>
          simp only [asyncHandshake, hhandshake]
          exact callbacks_exchange .ssl net _ {}

/-- Otherwise it calls `fail`. -/
theorem callbacks_run_of_error (http : HttpRequest ρ) {paramParse : Params} {ec : ErrorCode}
    (hname : net.setHostName paramParse.host = .error ec) :
    (run .ssl net http paramParse).callbacks = [failResponse ec "error SSL".toList] := by
  simp [run, checkSSL, hname]

end Coro

/-! ### The requests of one connection -/

namespace Async

variable (S : Stream) (net : Network ρ) (req : ρ) (c : HttpConnect ρ)

theorem written_onRead (ec : ErrorCode) (res : Response) :
    (onRead net c ec res).written = c.written := by
  unfold onRead
  split
  · rfl
  · unfold onShutdown
    dsimp only
    split
    · rfl
    · rfl

theorem written_asyncWrite : (asyncWrite net req c).written = c.written ++ [req] := by
  unfold asyncWrite onWrite
  split
  · rfl
  · exact written_onRead net _ _ _

theorem written_onResolve (ec : ErrorCode) :
    (onResolve S net req c ec).written <+: c.written ++ [req] := by
  have hnone : c.written <+: c.written ++ [req] := List.prefix_append _ _
  have hwrite : (asyncWrite net req c).written <+: c.written ++ [req] := by
    simp only [written_asyncWrite, List.prefix_rfl]
  unfold onResolve onConnect
  split
  · exact hnone
  · split
    · exact hnone
    · cases S with
      | tcp => exact hwrite
      | ssl =>
        dsimp only [onHandshake]
        split
        · exact hnone
        · exact hwrite

/-- At most the request that was built is written. -/
theorem written_run (http : HttpRequest ρ) (paramParse : Params) :
    (run S net http paramParse).written <+: [buildRequest http paramParse] := by
  unfold run
  split
  · exact List.nil_prefix
  · exact written_onResolve S net _ {} _

end Async

namespace Coro

variable (S : Stream) (net : Network ρ)

theorem written_exchange (req : ρ) (c : HttpConnect ρ) :
    (exchange S net req c).written = c.written ++ [req] := by
  unfold exchange
  dsimp only
  split
  · rfl
  · split
    · rfl
    · split
      · rfl
      · rfl

theorem written_checkSSL (c : HttpConnect ρ) (host : Str) :
    (checkSSL S net c host).2.written = c.written := by
  unfold checkSSL
  split
  · rfl
  · rfl

/-- At most the request that was built is written. -/
theorem written_run (http : HttpRequest ρ) (paramParse : Params) :
    (run S net http paramParse).written <+: [buildRequest http paramParse] := by
  have hssl := written_checkSSL S net {} paramParse.host
  unfold run
  generalize checkSSL S net {} paramParse.host = checked at hssl
  obtain ⟨ok, c⟩ := checked
  have hnone : c.written <+: [buildRequest http paramParse] := by
    rw [hssl]
    exact List.nil_prefix
  dsimp only
  split
  · exact hnone
  · split
    · exact hnone
    · split
      · exact hnone
      · split
        · exact hnone
        · rw [written_exchange, hssl]
          exact List.prefix_rfl

end Coro

end FHT.Client
