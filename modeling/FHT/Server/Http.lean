import FHT.Lib.StdMap
import FHT.Lib.StdString
import FHT.Lib.Thrown

/-!
# Requests, handlers and responses

What both server builds share: the request that the HTTP library delivers, the `dataRequest`
and `dataResponse` of a handler, and the responses that the servers put together. The HTTP
library itself is a parameter.

## Main definitions

- `Http` — the response type of the HTTP library and its operations
- `Http.Lawful` — the documented behaviour that the servers rely on
- `badRequest`, `badMethod`, `notFound`, `serverError` — the error answers
-/

namespace FHT.Server

/-- `http::verb`, as far as the servers tell methods apart. -/
inductive Verb
  | get
  | post
  | put
  | head
  | other
  deriving DecidableEq

/-- An `http::request` as the library delivers it: `base` are its fields, `keepAlive` and
`isUpgrade` what `keep_alive()` and `websocket::is_upgrade` say of it. -/
structure Request where
  method : Verb
  target : Str
  version : Nat
  base : List (Str × Str)
  keepAlive : Bool
  isUpgrade : Bool
  body : Str
  deriving DecidableEq

/-- `m_req = {}`. -/
def Request.empty : Request := ⟨.other, [], 11, [], true, false, []⟩

/-- What a `std::any` holds: the weak pointer to the connection's `wsSubscriber`, or a value of
the user. -/
inductive AnyValue (A : Type*)
  | wsSubscriber
  | user (a : A)
  deriving DecidableEq

/-- `iHendler::dataRequest`. Its `ptr` is left out: the server neither sets nor reads it, and what
it holds in a new object is indeterminate, but handlers may pass something on in it. -/
structure DataRequest (A : Type*) where
  params : StdMap Str Str
  headers : StdMap Str Str
  uri : Str
  nextLocation : Str
  ipClient : Str
  portClient : Int
  body : Str
  wsInstanse : Option (AnyValue A)

def DataRequest.empty {A : Type*} : DataRequest A := ⟨∅, ∅, [], [], [], 0, [], none⟩

/-- `iHendler::dataResponse`. -/
structure DataResponse where
  body : Str
  headers : StdMap Str Str
  filePath : Str

/-- `remote_endpoint()` of a connected socket. -/
structure Endpoint where
  address : Str
  port : Int
  deriving DecidableEq

/-- The responses `ρ` of the HTTP library. `set` returns: the names and values of the fields are
assumed to fit into the 16-bit sizes of the library, which throws beyond them. -/
structure Http (ρ : Type*) where
  response (status version : Nat) : ρ
  set (res : ρ) (name value : Str) : ρ
  setKeepAlive (res : ρ) (v : Bool) : ρ
  setBody (res : ρ) (body : Str) : ρ
  openFile (res : ρ) (path : Str) : ρ
  preparePayload (res : ρ) : ρ
  status (res : ρ) : Nat
  keepAlive (res : ρ) : Bool
  hasContentLength (res : ρ) : Bool
  needEof (res : ρ) : Bool

namespace Http

variable {ρ : Type*}

/-- `http::field::server` and `http::field::content_type`. -/
def server : Str := "Server".toList

def contentType : Str := "Content-Type".toList

/-- `http::response<Body>{ status, req.version() }` with the server's name. -/
def named (http : Http ρ) (req : Request) (status : Nat) : ρ :=
  http.set (http.response status req.version) server "FHT Server".toList

/-- The four error answers differ in their status and text. -/
def errorAnswer (http : Http ρ) (req : Request) (status : Nat) (why : Str) : ρ :=
  http.preparePayload <| http.setBody (http.setKeepAlive
    (http.set (http.named req status) contentType "text/html".toList)
    req.keepAlive) why

def badRequest (http : Http ρ) (req : Request) (why : Str) : ρ := http.errorAnswer req 400 why

def badMethod (http : Http ρ) (req : Request) (why : Str) : ρ := http.errorAnswer req 405 why

/-- The text given by the caller is replaced. -/
def notFound (http : Http ρ) (req : Request) (_why : Str) : ρ :=
  http.errorAnswer req 404
    ("The resource '".toList ++ req.target ++ "' was not found.".toList)

def serverError (http : Http ρ) (req : Request) (why : Str) : ρ :=
  http.errorAnswer req 500 ("An error occurred: '".toList ++ why ++ "'".toList)

/-- The answer to `HEAD`, an empty body without `prepare_payload`. -/
def headAnswer (http : Http ρ) (req : Request) : ρ :=
  http.setKeepAlive (http.named req 200) req.keepAlive

/-- `for (auto a : send.headers) res.set(a.first, a.second)`. -/
def setAll (http : Http ρ) (res : ρ) (headers : StdMap Str Str) : ρ :=
  headers.toList.foldl (fun res a => http.set res a.1 a.2) res

/-- The answer with what a handler has returned: its body, or the file that it names. The
parser's message is `200` and HTTP/1.1 by default. -/
def handlerAnswer (http : Http ρ) (req : Request) (send : DataResponse) : ρ :=
  if send.filePath = [] then
    let res := http.setKeepAlive (http.response 200 req.version) req.keepAlive
    let res := http.set res server "FHT Server".toList
    http.preparePayload (http.setBody (http.setAll res send.headers) send.body)
  else
    let res := http.setKeepAlive (http.response 200 11) req.keepAlive
    let res := http.set res server "FHT Server".toList
    http.openFile (http.setAll res send.headers) send.filePath

/-- The answer to a value that a handler throws: the `catch` clauses in their order. The argument
of `bad_request` is a `std::string`, so the clause for a `const char*` throws if that is null. -/
def thrownAnswer (http : Http ρ) (req : Request) : Thrown → Except Thrown ρ
  | .string e => .ok (http.badMethod req e)
  | .cString e => .ok (http.badRequest req e)
  | .nullCString => .error .nullString
  | .exception _ | .other => .ok (http.serverError req "Fatal".toList)

/-- What the servers rely on: `prepare_payload` gives a message a `Content-Length`, and only
such a message can leave the connection open, as its keep-alive flag says. The operations
between `keep_alive(v)` and the end of an error answer do not touch the flag, and none of
those changes the status. -/
structure Lawful (http : Http ρ) : Prop where
  status_response : ∀ status version, http.status (http.response status version) = status
  status_set : ∀ res name value, http.status (http.set res name value) = http.status res
  status_setKeepAlive : ∀ res v, http.status (http.setKeepAlive res v) = http.status res
  status_setBody : ∀ res body, http.status (http.setBody res body) = http.status res
  status_preparePayload : ∀ res, http.status (http.preparePayload res) = http.status res
  keepAlive_setKeepAlive : ∀ res v, http.keepAlive (http.setKeepAlive res v) = v
  keepAlive_setBody : ∀ res body, http.keepAlive (http.setBody res body) = http.keepAlive res
  keepAlive_preparePayload : ∀ res, http.keepAlive (http.preparePayload res) = http.keepAlive res
  hasContentLength_response : ∀ status version,
    http.hasContentLength (http.response status version) = false
  hasContentLength_server : ∀ res value,
    http.hasContentLength (http.set res server value) = http.hasContentLength res
  hasContentLength_setKeepAlive : ∀ res v,
    http.hasContentLength (http.setKeepAlive res v) = http.hasContentLength res
  hasContentLength_preparePayload : ∀ res, http.hasContentLength (http.preparePayload res) = true
  needEof_eq : ∀ res, http.needEof res = if http.hasContentLength res then !http.keepAlive res
    else true

namespace Lawful

variable {http : Http ρ} (h : http.Lawful)

include h

theorem status_errorAnswer (req : Request) (status : Nat) (why : Str) :
    http.status (http.errorAnswer req status why) = status := by
  simp [errorAnswer, named, h.status_preparePayload, h.status_setBody, h.status_setKeepAlive,
    h.status_set, h.status_response]

theorem status_headAnswer (req : Request) : http.status (http.headAnswer req) = 200 := by
  simp [headAnswer, named, h.status_setKeepAlive, h.status_set, h.status_response]

/-- An error answer announces what the request asked for. -/
theorem needEof_errorAnswer (req : Request) (status : Nat) (why : Str) :
    http.needEof (http.errorAnswer req status why) = !req.keepAlive := by
  simp [errorAnswer, h.needEof_eq, h.hasContentLength_preparePayload,
    h.keepAlive_preparePayload, h.keepAlive_setBody, h.keepAlive_setKeepAlive]

/-- The answer to `HEAD` always announces the end of the connection. -/
theorem needEof_headAnswer (req : Request) : http.needEof (http.headAnswer req) = true := by
  simp [headAnswer, named, h.needEof_eq, h.hasContentLength_setKeepAlive,
    h.hasContentLength_server, h.hasContentLength_response]

/-- So does every answer to a value that a handler throws announce the request's wish. -/
theorem needEof_thrownAnswer {req : Request} {e : Thrown} {res : ρ}
    (hres : http.thrownAnswer req e = .ok res) : http.needEof res = !req.keepAlive := by
  cases e with
  | nullCString => cases hres
  | exception | cString | string | other =>
    obtain rfl := Except.ok.inj hres
    exact h.needEof_errorAnswer req _ _

end Lawful

/-- Only a null pointer leaves the `catch` clauses. -/
theorem thrownAnswer_eq_error_iff (http : Http ρ) (req : Request) (e e' : Thrown) :
    http.thrownAnswer req e = .error e' ↔ e = .nullCString ∧ e' = .nullString := by
  cases e <;> simp [thrownAnswer, eq_comm]

end Http

/-- A message of the library: its status, version and fields, and its body or file. -/
structure Message where
  status : Nat
  version : Nat
  fields : StdMap Str Str
  body : Str
  file : Option Str

namespace Message

def connection : Str := "Connection".toList

def contentLength : Str := "Content-Length".toList

/-- `keep_alive()`: open by default in HTTP/1.1, closed by default before. -/
def keepAlive (res : Message) : Bool :=
  if res.version = 11 then res.fields[connection]? ≠ some "close".toList
  else res.fields[connection]? = some "keep-alive".toList

def setKeepAlive (res : Message) (v : Bool) : Message :=
  { res with fields :=
      if v = (res.version = 11 : Bool) then res.fields.erase connection
      else res.fields.insert connection (if v then "keep-alive".toList else "close".toList) }

/-- The library over plain messages, with field names compared exactly. -/
def http : Http Message where
  response status version := ⟨status, version, ∅, [], none⟩
  set res name value := { res with fields := res.fields.insert name value }
  setKeepAlive := setKeepAlive
  setBody res body := { res with body := body }
  openFile res path := { res with file := some path }
  preparePayload res :=
    { res with fields := res.fields.insert contentLength (Nat.repr res.body.length).toList }
  status := status
  keepAlive := keepAlive
  hasContentLength res := res.fields[contentLength]?.isSome
  needEof res := if res.fields[contentLength]?.isSome then !res.keepAlive else true

theorem keepAlive_setKeepAlive (res : Message) (v : Bool) :
    (res.setKeepAlive v).keepAlive = v := by
  unfold keepAlive setKeepAlive
  by_cases hver : res.version = 11
  · cases v <;> simp [hver]
  · cases v <;> simp [hver]

theorem contentLength_setKeepAlive (res : Message) (v : Bool) :
    (res.setKeepAlive v).fields[contentLength]? = res.fields[contentLength]? := by
  have hne : contentLength ≠ connection := by decide
  rw [setKeepAlive]
  split
  · rw [StdMap.getElem?_erase, if_neg hne]
  · rw [StdMap.getElem?_insert, if_neg hne]

theorem http_lawful : http.Lawful where
  status_response _ _ := rfl
  status_set _ _ _ := rfl
  status_setKeepAlive _ _ := rfl
  status_setBody _ _ := rfl
  status_preparePayload _ := rfl
  keepAlive_setKeepAlive := keepAlive_setKeepAlive
  keepAlive_setBody _ _ := rfl
  keepAlive_preparePayload res := by
    have hne : connection ≠ contentLength := by decide
    simp only [http, keepAlive]
    rw [StdMap.getElem?_insert, if_neg hne]
  hasContentLength_response _ _ := rfl
  hasContentLength_server res value := by
    have hne : contentLength ≠ Http.server := by decide
    simp only [http]
    rw [StdMap.getElem?_insert, if_neg hne]
  hasContentLength_setKeepAlive res v := by
    simp only [http]
    rw [contentLength_setKeepAlive]
  hasContentLength_preparePayload res := by
    simp only [http]
    rw [StdMap.getElem?_insert, if_pos rfl]
    rfl
  needEof_eq _ := rfl

end Message

end FHT.Server
