import FHT.Client.Outcome
import FHT.Server.Dispatch

/-!
# From a handler back to the client

What a handler returns or throws goes back the same way: the server makes a response of it, the
HTTP library delivers this, and the client copies it for its callback. The text that a handler
throws, and the address of a handler that is missing, arrive at the client as a status and a body.

## Main definitions

- `Answers.Lawful` — what the server relies on in the HTTP library
- `Carries` — a response of the client is what the handler returned

## Main results

- `call_returns` — for each build of the client and of the server
- `strings_return` — strings that are set as bodies, there and back
-/

namespace FHT.Client

open FHT.Server (Build Http Request Arrival DataResponse Handling Reached Reply ownLocation
  handling)

variable {ρ σ F A : Type}

/-! ### The responses of the HTTP library -/

/-- The parts of a response. -/
structure AnswerContent where
  status : Nat
  fields : Fields
  body : Str

/-- What a response of the library holds, and what a client reads when it has been sent. -/
structure Answers (σ : Type) where
  content : σ → AnswerContent
  delivered : σ → Response

/-- The names of the fields that say how long a message and its connection last. -/
def framing : List Str := ["Connection".toList, contentLength, transferEncoding]

/-- What the servers rely on: the operations change what they are named after, `keep_alive` and
`prepare_payload` nothing but the fields that say how long the message and the connection last,
and a message arrives as it was sent. -/
structure Answers.Lawful (ans : Answers σ) (res : Http σ) : Prop where
  content_response : ∀ status version, ans.content (res.response status version) = ⟨status, [], []⟩
  content_set : ∀ m name value, ans.content (res.set m name value) =
    { ans.content m with fields := (ans.content m).fields.set name value }
  content_setKeepAlive : ∀ m v, ∃ fields,
    ans.content (res.setKeepAlive m v) = { ans.content m with fields := fields } ∧
      ∀ name, ¬ iequals name "Connection".toList →
        List.lookup name fields = List.lookup name (ans.content m).fields
  content_setBody : ∀ m body,
    ans.content (res.setBody m body) = { ans.content m with body := body }
  content_preparePayload : ∀ m, ∃ fields,
    ans.content (res.preparePayload m) = { ans.content m with fields := fields } ∧
      ∀ name, ¬ iequals name contentLength → ¬ iequals name transferEncoding →
        List.lookup name fields = List.lookup name (ans.content m).fields
  resultInt_delivered : ∀ m, (ans.delivered m).resultInt = (ans.content m).status
  base_delivered : ∀ m, (ans.delivered m).base = (ans.content m).fields
  body_delivered : ∀ m, (ans.delivered m).body = (ans.content m).body

/-- A response without a file, whose headers have names of their own. -/
structure Sendable (send : DataResponse) : Prop where
  filePath : send.filePath = []
  distinct : ∀ m ∈ send.headers, ∀ n ∈ send.headers, iequals m n → m = n
  unreserved : ∀ n ∈ send.headers, ∀ r ∈ framing, ¬ iequals n r

theorem pairwise_toList {headers : StdMap Str Str}
    (h : ∀ m ∈ headers, ∀ n ∈ headers, iequals m n → m = n) :
    headers.toList.Pairwise fun p q => ¬ iequals p.1 q.1 := by
  refine Std.ExtTreeMap.distinct_keys_toList.imp_of_mem fun {p q} hp hq hne hi => ?_
  have heq := h p.1 (mem_of_mem_toList hp) q.1 (mem_of_mem_toList hq) hi
  exact hne (Std.LawfulEqCmp.compare_eq_iff_eq.mpr heq)

namespace Answers.Lawful

variable {ans : Answers σ} {res : Http σ} (h : ans.Lawful res)

include h

theorem content_setAll (headers : StdMap Str Str) (m : σ) :
    ans.content (res.setAll m headers) =
      { ans.content m with fields := (ans.content m).fields.setAll headers.toList } := by
  rw [Http.setAll]
  induction headers.toList generalizing m with
  | nil => rfl
  | cons p pairs ih =>
    rw [List.foldl_cons, ih, h.content_set]
    rfl

/-- The answer made of what a handler has returned. -/
theorem content_handlerAnswer (req : Request) {send : DataResponse} (hsend : Sendable send) :
    ∃ fields, ans.content (res.handlerAnswer req send) = ⟨200, fields, send.body⟩ ∧
      ∀ name value : Str, send.headers[name]? = some value →
        List.lookup name fields = some value := by
  rw [Http.handlerAnswer, if_pos hsend.filePath]
  obtain ⟨kept, hkept, -⟩ := h.content_setKeepAlive (res.response 200 req.version) req.keepAlive
  obtain ⟨fields, hcontent, hfields⟩ := h.content_preparePayload
    (res.setBody (res.setAll (res.set (res.setKeepAlive (res.response 200 req.version)
      req.keepAlive) Http.server "FHT Server".toList) send.headers) send.body)
  rw [h.content_setBody, h.content_setAll, h.content_set, hkept, h.content_response]
    at hcontent hfields
  refine ⟨fields, hcontent, fun name value hvalue => ?_⟩
  have hname : name ∈ send.headers := by
    rw [StdMap.mem_iff_getElem?_ne_none, hvalue]
    simp
  rw [hfields name (hsend.unreserved name hname _ (by simp [framing]))
    (hsend.unreserved name hname _ (by simp [framing]))]
  exact Fields.lookup_setAll_of_mem (p := (name, value)) (pairwise_toList hsend.distinct)
    (Std.ExtTreeMap.mem_toList_iff_getElem?_eq_some.mpr hvalue) _

theorem content_errorAnswer (req : Request) (status : Nat) (why : Str) :
    ∃ fields, ans.content (res.errorAnswer req status why) = ⟨status, fields, why⟩ := by
  obtain ⟨kept, hkept, -⟩ := h.content_setKeepAlive
    (res.set (res.named req status) Http.contentType "text/html".toList) req.keepAlive
  obtain ⟨fields, hcontent, -⟩ := h.content_preparePayload (res.setBody (res.setKeepAlive
    (res.set (res.named req status) Http.contentType "text/html".toList) req.keepAlive) why)
  rw [h.content_setBody, hkept, h.content_set, Http.named, h.content_set, h.content_response]
    at hcontent
  exact ⟨fields, hcontent⟩

end Answers.Lawful

/-! ### What the client is given -/

/-- The response of the client is what the handler returned. -/
structure Carries (send : DataResponse) (r : HttpResponse) : Prop where
  status : r.status = 200
  body : r.body = send.body
  headers : ∀ name value : Str, send.headers[name]? = some value → r.headers[name]? = some value

/-- The status and the text by which a client learns what a handler has thrown. A null pointer
leaves the server without an answer. -/
def thrownStatus : Thrown → Option (Nat × Str)
  | .string e => some (405, e)
  | .cString e => some (400, e)
  | .nullCString => none
  | .exception _ | .other => some (500, "An error occurred: 'Fatal'".toList)

/-- The handler returns a response that can be sent as it is, or throws what can be answered. -/
def Answerable (reply : Reply A) : Prop :=
  match reply.result with
  | .ok send => Sendable send
  | .error e => e ≠ .nullCString

/-- What a handler has done with a request, as the response of the client tells it. -/
def Tells (reply : Reply A) (r : HttpResponse) : Prop :=
  match reply.result with
  | .ok send => Carries send r
  | .error e => ∃ p, thrownStatus e = some p ∧ r.status = p.1 ∧ r.body = p.2

section Delivered

variable {ans : Answers σ} {res : Http σ} (h : ans.Lawful res)

include h

theorem tells_replyAnswer {req : Request} {reply : Reply A} (hreply : Answerable reply) {m : σ}
    (hm : Server.replyAnswer res req reply = .ok m) :
    Tells reply (ans.delivered m).httpResponse := by
  unfold Tells
  unfold Answerable at hreply
  unfold Server.replyAnswer at hm
  cases hresult : reply.result with
  | ok send =>
    rw [hresult] at hm hreply
    obtain rfl := Except.ok.inj hm
    obtain ⟨fields, hcontent, hfields⟩ := h.content_handlerAnswer req hreply
    constructor
    · rw [Response.httpResponse, h.resultInt_delivered, hcontent]
      rfl
    · rw [Response.httpResponse, h.body_delivered, hcontent]
    · intro name value hvalue
      rw [Response.httpResponse, StdMap.getElem?_emplaceAll, h.base_delivered, hcontent,
        hfields name value hvalue]
      simp
  | error e =>
    rw [hresult] at hm
    obtain ⟨p, hp, fields, hcontent⟩ : ∃ p, thrownStatus e = some p ∧
        ∃ fields, ans.content m = ⟨p.1, fields, p.2⟩ := by
      cases e with
      | nullCString => cases hm
      | exception | cString | string | other =>
        obtain rfl := Except.ok.inj hm
        exact ⟨_, rfl, h.content_errorAnswer req _ _⟩
    refine ⟨p, hp, ?_, ?_⟩
    · rw [Response.httpResponse, h.resultInt_delivered, hcontent]
    · rw [Response.httpResponse, h.body_delivered, hcontent]

theorem delivered_notFound (req : Request) (why : Str) :
    (ans.delivered (res.notFound req why)).httpResponse.status = 404 ∧
      (ans.delivered (res.notFound req why)).httpResponse.body =
        "The resource '".toList ++ req.target ++ "' was not found.".toList := by
  obtain ⟨fields, hcontent⟩ := h.content_errorAnswer req 404
    ("The resource '".toList ++ req.target ++ "' was not found.".toList)
  rw [Http.notFound]
  simp only [Response.httpResponse, h.resultInt_delivered, h.body_delivered, hcontent]
  trivial

end Delivered

/-- A request is written only when the host name is set and the stream connected. -/
theorem connects_of_written {net : Network ρ} {http : HttpRequest ρ} {p : Params} {build : Build}
    {q : ρ} (hq : q ∈ (runOf net http p build).written) :
    (p.stream = .ssl → net.setHostName p.host = .ok ()) ∧ net.connects p.stream p := by
  by_cases hname : p.stream = .ssl → net.setHostName p.host = .ok ()
  · refine ⟨hname, ?_⟩
    obtain ⟨connect, hrun⟩ : ∃ connect, runOf net http p build =
        connection connect (late net p.stream build) p.stream net p (buildRequest http p) := by
      cases build with
      | async => exact ⟨_, Async.run_eq hname http⟩
      | coro => exact ⟨_, Coro.run_eq hname http⟩
    rw [hrun, connection] at hq
    by_contra hno
    rw [if_neg hno] at hq
    cases hq
  · obtain ⟨hssl, herror⟩ := Classical.not_imp.mp hname
    cases build with
    | async =>
      have hcheck : Async.checkSSL p.stream net p.host = false := by
        rw [← Bool.not_eq_true, Async.checkSSL_iff]
        exact hname
      simp [runOf, Async.run, hcheck] at hq
    | coro =>
      cases hset : net.setHostName p.host with
      | ok _ => exact absurd hset herror
      | error ec => simp [runOf, Coro.run, hssl, Coro.checkSSL, hset, HttpConnect.fail,
          HttpConnect.callback] at hq

theorem reads_of_connects {net : Network ρ} {p : Params} {q : ρ}
    (hname : p.stream = .ssl → net.setHostName p.host = .ok ()) (h : net.connects p.stream p)
    (hwrite : (net.write q).isError = false) (hread : net.read.1.isError = false) :
    net.Reads p q := by
  simp only [Network.connects, Bool.and_eq_true, Bool.not_eq_true', Bool.or_eq_true,
    decide_eq_true_eq] at h
  obtain ⟨⟨hresolve, hconnect⟩, hhandshake⟩ := h
  exact ⟨hname, hresolve, hconnect, fun hssl => hhandshake.resolve_left (by simp [hssl]), hwrite,
    hread⟩

theorem callbacks_of_reads {net : Network ρ} {http : HttpRequest ρ} {p : Params} {build : Build}
    (h : net.Reads p (buildRequest http p)) : (runOf net http p build).callbacks =
      answered net.read.2 (late net p.stream build) := by
  cases build with
  | async => exact Async.callbacks_of_reads h
  | coro => exact Coro.callbacks_of_reads h

/-- The responses of a new session to the first request that it reads. -/
def responsesOf (http : Http σ) (lessenAll : Bool) (a : Arrival F A) : Build → List σ
  | .async => Server.responses ((Server.Async.HttpServer.init lessenAll).onRead http a).log
  | .coro => Server.responses ((Server.Coro.Session.init lessenAll).onRead http a).log

theorem responsesOf_eq (http : Http σ) (lessenAll : Bool) (a : Arrival F A) (build : Build) :
    responsesOf http lessenAll a build =
      ((handling http lessenAll .empty none a).response http a.req).toList := by
  have hresponses := Handling.responses_events http a.req (handling http lessenAll .empty none a)
  cases build with
  | async =>
    have hlog := (Server.Async.HttpServer.onRead_follows http (.init lessenAll) a).1
    rw [responsesOf, hlog]
    exact hresponses
  | coro =>
    have hlog := (Server.Coro.Session.onRead_follows http (.init lessenAll) a).1
    rw [responsesOf, hlog]
    exact hresponses

theorem Plain.dispatched {req : HttpClient} {authority target : Str}
    (h : Plain req authority target) {r : Request} (harrived : Arrived req target r) :
    r.method.dispatched := by
  rw [harrived.method]
  rcases h.type with ⟨hget, -⟩ | hpost | hput
  · rw [hget]
    rfl
  · rw [hpost]
    rfl
  · rw [hput]
    rfl

/-- Where no handler is registered for a plain request, it is answered with 404. -/
theorem handling_of_not_reached {http : Http σ} {lessenAll : Bool} {a : Arrival F A}
    {info : Server.Endpoint} (hm : a.req.method.dispatched) (hinfo : a.remote = some info)
    (hup : a.req.isUpgrade = false)
    (hr : ¬ Reached a.H false (ownLocation lessenAll a.req.target)) :
    handling http lessenAll .empty none a =
      .answer (http.notFound a.req "Unknown HTTP handler".toList) := by
  have hnone := (Server.select_eq_none_iff_not_reached a.H false _).mpr hr
  rw [handling, if_pos hm, hinfo]
  simp only [Server.routing_none, hup, hnone, Server.routed]

section Call

variable {msg : Messages ρ} {http : HttpRequest ρ} {ans : Answers σ} {res : Http σ}
  {net : Network ρ} {client server : Build} {req : HttpClient} {authority target : Str}
  {a : Arrival F A} {lessenAll : Bool} {m : σ}

/-- What is delivered after a request was written is the first that the client is called with. -/
theorem calls_of_sent (h : Plain req authority target)
    (hsent : Sent msg http net client req a.req) (hwrite : ∀ q, (net.write q).isError = false)
    (hread : net.read = (.success, ans.delivered m)) :
    (calls (webClientOf net http client) req).head? = some (ans.delivered m).httpResponse ∧
      ∀ p, params req = some p → (late net p.stream client).isError = false →
        fetchSync (webClientOf net http client) req = some (ans.delivered m).httpResponse := by
  obtain ⟨c, q, hc, hq, -⟩ := hsent
  obtain ⟨p, hp, -, -⟩ := h.params_eq_some
  rw [fetch, if_neg (by simp [h.correctUrl]), webClientOf_eq, hp, Option.map_some,
    Option.some.injEq] at hc
  obtain rfl := hc
  obtain ⟨hname, hconnects⟩ := connects_of_written hq
  have hreads := reads_of_connects hname hconnects (hwrite (buildRequest http p))
    (by rw [hread]; rfl)
  have hcallbacks : (runOf net http p client).callbacks = _ := callbacks_of_reads hreads
  rw [hread, answered] at hcallbacks
  constructor
  · rw [calls_of_params h.correctUrl hp, hcallbacks, List.head?_cons]
  · intro p' hp' hlate
    obtain rfl : p = p' := Option.some.inj (hp.symm.trans hp')
    rw [fetchSync_of_params h.correctUrl hp, hcallbacks, hlate]
    rfl

/-- A server answers a plain request with what its handler has done. -/
theorem exists_call_of_reached (hlaw : msg.Lawful http) (h : Plain req authority target)
    (hsent : Sent msg http net client req a.req) (hremote : a.remote ≠ none)
    (hm : responsesOf res lessenAll a server = [m])
    (hreached : Reached a.H false (ownLocation lessenAll target)) :
    ∃ f d, handling res lessenAll .empty none a = .call f d a.reply ∧ d.body = req.sentBody ∧
      Server.replyAnswer res a.req a.reply = .ok m := by
  have harrived := h.arrived hlaw hsent
  obtain ⟨info, hinfo⟩ := Option.ne_none_iff_exists'.mp hremote
  rw [← harrived.target] at hreached
  obtain ⟨f, nextLocation, hcall⟩ := Server.handling_of_reached res (h.dispatched harrived) hinfo
    harrived.isUpgrade hreached .empty none
  rw [responsesOf_eq, hcall, Handling.response] at hm
  refine ⟨f, _, hcall, harrived.body, ?_⟩
  cases hanswer : Server.replyAnswer res a.req a.reply with
  | ok m' =>
    rw [hanswer] at hm
    exact congrArg Except.ok (List.singleton_inj.mp hm)
  | error e =>
    rw [hanswer] at hm
    cases hm

/-- A plain request is answered, unless the handler that it reaches throws a null pointer. -/
theorem exists_responsesOf_eq (hlaw : msg.Lawful http) (h : Plain req authority target)
    (hsent : Sent msg http net client req a.req) (hremote : a.remote ≠ none)
    (hreply : Reached a.H false (ownLocation lessenAll target) → Answerable a.reply) :
    ∃ m, responsesOf res lessenAll a server = [m] := by
  have harrived := h.arrived hlaw hsent
  simp only [responsesOf_eq]
  cases hresponse : (handling res lessenAll .empty none a).response res a.req with
  | some m => exact ⟨m, rfl⟩
  | none =>
    obtain ⟨⟨-, -, hreached⟩, hnull⟩ := (Server.response_eq_none_iff res lessenAll .empty none
      harrived.isUpgrade hremote).mp hresponse
    rw [harrived.target] at hreached
    have hanswerable := hreply (hreached.resolve_right fun h => h.2 rfl)
    rw [Answerable, hnull] at hanswerable
    exact absurd rfl hanswerable

/-- A plain request that has been written to a new session, in either build of the client and of
the server, comes back as what became of it, if the handler that it reaches does what can be
answered: the client is called first with the status, body and headers that the handler returned,
or with the status and text of what it threw, or with a 404 that names the target. If nothing fails
after the read, the synchronous overload returns this. -/
theorem call_returns (hlaw : msg.Lawful http) (hans : ans.Lawful res)
    (h : Plain req authority target) (hsent : Sent msg http net client req a.req)
    (hremote : a.remote ≠ none)
    (hreply : Reached a.H false (ownLocation lessenAll target) → Answerable a.reply)
    (hwrite : ∀ q, (net.write q).isError = false)
    (hread : ∀ m ∈ responsesOf res lessenAll a server, net.read = (.success, ans.delivered m)) :
    ∃ r, (calls (webClientOf net http client) req).head? = some r ∧
      (∀ p, params req = some p → (late net p.stream client).isError = false →
        fetchSync (webClientOf net http client) req = some r) ∧
      (Reached a.H false (ownLocation lessenAll target) → Tells a.reply r) ∧
      (¬ Reached a.H false (ownLocation lessenAll target) → r.status = 404 ∧
        r.body = "The resource '".toList ++ target ++ "' was not found.".toList) := by
  obtain ⟨m, hm⟩ : ∃ m, responsesOf res lessenAll a server = [m] :=
    exists_responsesOf_eq hlaw h hsent hremote hreply
  obtain ⟨hfirst, hsync⟩ := calls_of_sent h hsent hwrite (hread m (by simp [hm]))
  refine ⟨_, hfirst, hsync, ?_, ?_⟩
  · intro hreached
    obtain ⟨_, _, _, _, hanswer⟩ := exists_call_of_reached hlaw h hsent hremote hm hreached
    exact tells_replyAnswer hans (hreply hreached) hanswer
  · intro hreached
    have harrived := h.arrived hlaw hsent
    obtain ⟨info, hinfo⟩ := Option.ne_none_iff_exists'.mp hremote
    rw [← harrived.target] at hreached ⊢
    rw [responsesOf_eq, handling_of_not_reached (h.dispatched harrived) hinfo harrived.isUpgrade
      hreached] at hm
    obtain rfl := List.singleton_inj.mp hm
    exact delivered_notFound hans a.req _

end Call

/-! ### Strings as bodies -/

/-- `iHendler::dataResponse::setStringToBody`, which appends to the body. -/
def setStringToBody (d : DataResponse) (bodyStr : Str) : DataResponse :=
  { d with
    headers := d.headers.emplace Http.contentType "text/plain".toList
    body := d.body ++ bodyStr }

/-- `iClient::httpClient::setStringToBody`. -/
def HttpClient.setStringToBody (req : HttpClient) (bodyStr : Str) : HttpClient :=
  { req with
    headers := req.headers.emplace Http.contentType "text/plain".toList
    body := req.body ++ bodyStr
    type := .post }

/-- `iHendler::dataRequest::getStringFromBody`. -/
def getStringFromBody (d : Server.DataRequest A) : Str := d.body

/-- `iClient::httpClient::httpResponse::getStringFromBody`. -/
def HttpResponse.getStringFromBody (r : HttpResponse) : Str := r.body

/-- The headers of strings that were set one after the other. -/
def textPlain (strs : List Str) : StdMap Str Str :=
  if strs = [] then ∅ else StdMap.emplace ∅ Http.contentType "text/plain".toList

theorem textPlain_emplace (strs : List Str) (str : Str) :
    (textPlain strs).emplace Http.contentType "text/plain".toList = textPlain (strs ++ [str]) := by
  have hne : strs ++ [str] ≠ [] := by simp
  rw [textPlain, textPlain, if_neg hne]
  split
  · rfl
  · rw [StdMap.emplace_eq_self_iff, StdMap.mem_iff_getElem?_ne_none, StdMap.getElem?_emplace,
      if_pos rfl]
    simp

theorem foldl_setStringToBody (strs : List Str) :
    strs.foldl setStringToBody ⟨[], ∅, []⟩ = ⟨strs.flatten, textPlain strs, []⟩ := by
  induction strs using List.reverseRecOn with
  | nil => rfl
  | append_singleton strs str ih =>
    rw [List.foldl_append, ih, List.flatten_append, ← textPlain_emplace strs str]
    simp [setStringToBody]

theorem foldl_httpClient_setStringToBody (url : Str) {strs : List Str} (hstrs : strs ≠ []) :
    strs.foldl HttpClient.setStringToBody ⟨url, [], ∅, .get⟩ =
      ⟨url, strs.flatten, textPlain strs, .post⟩ := by
  induction strs using List.reverseRecOn with
  | nil => exact absurd rfl hstrs
  | append_singleton strs str ih =>
    rw [List.foldl_append, List.flatten_append, ← textPlain_emplace strs str]
    by_cases hnil : strs = []
    · subst hnil
      simp [HttpClient.setStringToBody, textPlain]
    · rw [ih hnil]
      simp [HttpClient.setStringToBody]

theorem eq_of_mem_textPlain {strs : List Str} {name : Str} (h : name ∈ textPlain strs) :
    name = Http.contentType := by
  by_contra hne
  rw [StdMap.mem_iff_getElem?_ne_none, textPlain] at h
  split at h
  · exact h Std.ExtTreeMap.getElem?_empty
  · rw [StdMap.getElem?_emplace, if_neg hne] at h
    exact h Std.ExtTreeMap.getElem?_empty

theorem sendable_strings (strs : List Str) : Sendable ⟨strs.flatten, textPlain strs, []⟩ := by
  constructor
  · rfl
  · intro m hm n hn _
    rw [eq_of_mem_textPlain hm, eq_of_mem_textPlain hn]
  · intro n hn
    rw [eq_of_mem_textPlain hn]
    decide

theorem plain_strings {authority target : Str} (hauthority : '/' ∉ authority)
    (htarget : ['/'] <+: target) (strs : List Str) :
    Plain ⟨"http://".toList ++ (authority ++ target), strs.flatten, textPlain strs, .post⟩
      authority target := by
  constructor
  · rfl
  · exact hauthority
  · exact htarget
  · exact .inr (.inl rfl)
  · intro m hm n hn _
    rw [eq_of_mem_textPlain hm, eq_of_mem_textPlain hn]
  · intro n hn
    rw [eq_of_mem_textPlain hn]
    decide

/-- Strings that are set to the body of a request arrive at the handler as one string, and the
strings that it makes of this, set to the body of its response, come back as one string. -/
theorem strings_return {msg : Messages ρ} {http : HttpRequest ρ} (hlaw : msg.Lawful http)
    {ans : Answers σ} {res : Http σ} (hans : ans.Lawful res) {net : Network ρ}
    {client server : Build} {authority target : Str} (hauthority : '/' ∉ authority)
    (htarget : ['/'] <+: target) {strs : List Str} (hstrs : strs ≠ []) {req : HttpClient}
    (hreq : req = strs.foldl HttpClient.setStringToBody
      ⟨"http://".toList ++ (authority ++ target), [], ∅, .get⟩)
    {a : Arrival F A} (hsent : Sent msg http net client req a.req) (hremote : a.remote ≠ none)
    {lessenAll : Bool} (hreached : Reached a.H false (ownLocation lessenAll target))
    (makes : Str → List Str)
    (hreply : ∀ f d, handling res lessenAll .empty none a = .call f d a.reply →
      a.reply.result = .ok ((makes (getStringFromBody d)).foldl setStringToBody ⟨[], ∅, []⟩))
    {m : σ} (hm : responsesOf res lessenAll a server = [m])
    (hwrite : ∀ q, (net.write q).isError = false) (hread : net.read = (.success, ans.delivered m)) :
    ∃ r, (calls (webClientOf net http client) req).head? = some r ∧ r.status = 200 ∧
      r.getStringFromBody = (makes strs.flatten).flatten := by
  have hplain : Plain req authority target := by
    rw [hreq, foldl_httpClient_setStringToBody _ hstrs]
    exact plain_strings hauthority htarget strs
  have hbody : req.sentBody = strs.flatten := by
    rw [hreq, foldl_httpClient_setStringToBody _ hstrs, HttpClient.sentBody, if_pos rfl]
  obtain ⟨hfirst, -⟩ := calls_of_sent hplain hsent hwrite hread
  obtain ⟨f, d, hcall, hd, hanswer⟩ :=
    exists_call_of_reached hlaw hplain hsent hremote hm hreached
  have hresult := hreply f d hcall
  rw [getStringFromBody, hd, hbody, foldl_setStringToBody] at hresult
  have hanswerable : Answerable a.reply := by
    rw [Answerable, hresult]
    exact sendable_strings _
  have hcarries := tells_replyAnswer hans hanswerable hanswer
  rw [Tells, hresult] at hcarries
  exact ⟨_, hfirst, hcarries.status, hcarries.body⟩

namespace AnswerContent

/-- The library over plain contents, for HTTP/1.1. -/
def http : Http AnswerContent where
  response status _ := ⟨status, [], []⟩
  set m name value := { m with fields := m.fields.set name value }
  setKeepAlive m v :=
    if v then m else { m with fields := m.fields.set "Connection".toList "close".toList }
  setBody m body := { m with body := body }
  openFile m _ := m
  preparePayload m :=
    { m with fields := m.fields.set contentLength (Nat.repr m.body.length).toList }
  status m := m.status
  keepAlive m := List.lookup "Connection".toList m.fields ≠ some "close".toList
  hasContentLength m := (List.lookup contentLength m.fields).isSome
  needEof m := if (List.lookup contentLength m.fields).isSome then
      List.lookup "Connection".toList m.fields = some "close".toList
    else true

def answers : Answers AnswerContent where
  content := id
  delivered m := ⟨m.status, m.fields, m.body⟩

theorem answers_lawful : answers.Lawful http where
  content_response _ _ := rfl
  content_set _ _ _ := rfl
  content_setKeepAlive m v := by
    cases v with
    | true => exact ⟨_, rfl, fun _ _ => rfl⟩
    | false => exact ⟨_, rfl, fun name hname => Fields.lookup_set_of_not hname _ _⟩
  content_setBody _ _ := rfl
  content_preparePayload m :=
    ⟨m.fields.set contentLength (Nat.repr m.body.length).toList, rfl,
      fun _ hlength _ => Fields.lookup_set_of_not hlength _ _⟩
  resultInt_delivered _ := rfl
  base_delivered _ := rfl
  body_delivered _ := rfl

end AnswerContent

/-- The handler throws a string. -/
def throwing : Arrival Nat Unit :=
  { arrivalOf .post "1".toList "x".toList with
    reply := ⟨.empty, .error (.string "no".toList)⟩ }

/-- The network delivers the answer to it. -/
def answering : Network Content :=
  { connected with
    read := (.success, AnswerContent.answers.delivered
      (AnswerContent.http.badMethod throwing.req "no".toList)) }

theorem call_returns_thrown :
    ∃ r, fetchSync (webClientOf answering Content.http .coro) (withBody .post) = some r ∧
      r.status = 405 ∧ r.body = "no".toList := by
  have hsent : Sent Content.messages Content.http answering .coro (withBody .post) throwing.req :=
    ⟨_, _, rfl, List.mem_singleton_self _, rfl⟩
  have hm : responsesOf AnswerContent.http false throwing .async =
      [AnswerContent.http.badMethod throwing.req "no".toList] := by
    rw [responsesOf_eq]
    rfl
  have hanswerable : Answerable throwing.reply := by simp [Answerable, throwing]
  obtain ⟨r, -, hsync, htells, -⟩ := call_returns Content.messages_lawful
    AnswerContent.answers_lawful (plain_withBody (.inl rfl)) hsent (by simp [throwing, arrivalOf])
    (fun _ => hanswerable) (fun _ => rfl) fun m hmem => by
      rw [hm, List.mem_singleton] at hmem
      rw [hmem]
      rfl
  obtain ⟨_, ⟨⟩, hstatus, hbody⟩ := htells (reached_arrivalOf .post "1".toList "x".toList)
  exact ⟨r, hsync _ rfl rfl, hstatus, hbody⟩

/-- The request carries two strings. -/
def twoStrings : HttpClient :=
  ["x".toList, "y".toList].foldl HttpClient.setStringToBody ⟨"http://h/a".toList, [], ∅, .get⟩

/-- The handler of `/a` answers `xy` with this string twice. -/
def xyTwice : DataResponse :=
  ["xy".toList, "xy".toList].foldl setStringToBody ⟨[], ∅, []⟩

def doubling : Arrival Nat Unit :=
  { arrivalOf .post "2".toList "xy".toList with
    req := ⟨.post, "/a".toList, 11, [("Host".toList, "h".toList),
      (Http.contentType, "text/plain".toList), (contentLength, "2".toList)], true, false,
      "xy".toList⟩
    reply := ⟨.empty, .ok xyTwice⟩ }

def echoing : Network Content :=
  { connected with
    read := (.success, AnswerContent.answers.delivered
      (AnswerContent.http.handlerAnswer doubling.req xyTwice)) }

theorem strings_return_doubling :
    ∃ r, (calls (webClientOf echoing Content.http .async) twoStrings).head? = some r ∧
      r.status = 200 ∧ r.getStringFromBody = "xyxy".toList := by
  have hsent : Sent Content.messages Content.http echoing .async twoStrings doubling.req :=
    ⟨_, _, rfl, List.mem_singleton_self _, rfl⟩
  have hm : responsesOf AnswerContent.http false doubling .coro =
      [AnswerContent.http.handlerAnswer doubling.req xyTwice] := by
    rw [responsesOf_eq]
    rfl
  have hauthority : '/' ∉ "h".toList := by decide
  have htarget : ['/'] <+: "/a".toList := by decide
  have hstrs : ["x".toList, "y".toList] ≠ [] := by simp
  exact strings_return Content.messages_lawful AnswerContent.answers_lawful hauthority htarget
    hstrs rfl hsent (by simp [doubling, arrivalOf])
    (reached_arrivalOf .post "2".toList "xy".toList) (fun str => [str, str])
    (by rintro f d ⟨⟩; rfl) hm (fun _ => rfl) rfl

end FHT.Client
