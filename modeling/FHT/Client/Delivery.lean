import FHT.Client.Fetch
import FHT.Lib.Fields
import FHT.Server.Isolation
import FHT.Server.KeepAlive

/-!
# From the client to a handler

What the client is given goes a long way to the handler of a server: the URL is cut up, the
request is built and written, the HTTP library delivers it, the target is routed and parsed and
the fields are put into a map. Only the body can get lost, as the client passes it on for a
`POST` alone.

## Main definitions

- `Messages.Lawful` — what the client relies on in the HTTP library
- `Received` — a handler is passed what the client was given

## Main results

- `received_iff` — for each build of the client and of the server
-/

namespace FHT.Client

open FHT.Server (Verb Build Http Request DataRequest Arrival Endpoint Reached ownLocation
  queryParams parsed handling)

variable {ρ σ F A : Type}

/-! ### The messages of the HTTP library -/

/-- The parts of a request. -/
structure Content where
  method : Verb
  target : Str
  fields : Fields
  body : Str
  deriving DecidableEq

/-- What a message of the library holds, and what a server reads when it has been sent. -/
structure Messages (ρ : Type) where
  content : ρ → Content
  delivered : ρ → Request

def contentLength : Str := "Content-Length".toList

def transferEncoding : Str := "Transfer-Encoding".toList

def upgrade : Str := "Upgrade".toList

/-- What the client relies on: the operations change what they are named after,
`prepare_payload` nothing but the framing, and a message arrives as it was sent. There is no
upgrade without a field that asks for it. -/
structure Messages.Lawful (msg : Messages ρ) (http : HttpRequest ρ) : Prop where
  content_request : ∀ type uri version,
    msg.content (http.request type uri version) = ⟨type, uri, [], []⟩
  content_set : ∀ req name value, msg.content (http.set req name value) =
    { msg.content req with fields := (msg.content req).fields.set name value }
  content_setBody : ∀ req body,
    msg.content (http.setBody req body) = { msg.content req with body := body }
  content_preparePayload : ∀ req, ∃ fields,
    msg.content (http.preparePayload req) = { msg.content req with fields := fields } ∧
      ∀ name, ¬ iequals name contentLength → ¬ iequals name transferEncoding →
        List.lookup name fields = List.lookup name (msg.content req).fields
  method_delivered : ∀ req, (msg.delivered req).method = (msg.content req).method
  target_delivered : ∀ req, (msg.delivered req).target = (msg.content req).target
  base_delivered : ∀ req, (msg.delivered req).base = (msg.content req).fields
  body_delivered : ∀ req, (msg.delivered req).body = (msg.content req).body
  isUpgrade_delivered : ∀ req, (msg.delivered req).isUpgrade = true →
    ∃ name, iequals name upgrade ∧ List.lookup name (msg.content req).fields ≠ none

/-! ### The request that the client builds -/

/-- The fields that the client has set, in the order of the calls. -/
def Params.fields (p : Params) : Fields :=
  (Fields.set [] "Host".toList p.host).setAll p.request.headers.toList

/-- The body that the client passes on. -/
def HttpClient.sentBody (req : HttpClient) : Str := if req.type = .post then req.body else []

namespace Messages.Lawful

variable {msg : Messages ρ} {http : HttpRequest ρ} (h : msg.Lawful http)

include h

theorem content_setAll (pairs : List (Str × Str)) (req : ρ) :
    msg.content (pairs.foldl (fun req a => http.set req a.1 a.2) req) =
      { msg.content req with fields := (msg.content req).fields.setAll pairs } := by
  induction pairs generalizing req with
  | nil => rfl
  | cons p pairs ih =>
    rw [List.foldl_cons, ih, h.content_set]
    rfl

theorem content_buildRequest (p : Params) :
    ∃ fields, msg.content (buildRequest http p) =
        ⟨p.request.type, p.uri, fields, p.request.sentBody⟩ ∧
      ∀ name, ¬ iequals name contentLength → ¬ iequals name transferEncoding →
        List.lookup name fields = List.lookup name p.fields := by
  have hbody : msg.content (if p.request.type = .post then
      http.setBody (http.request p.request.type p.uri 11) p.request.body
      else http.request p.request.type p.uri 11) =
      ⟨p.request.type, p.uri, [], p.request.sentBody⟩ := by
    unfold HttpClient.sentBody
    split
    · rw [h.content_setBody, h.content_request]
    · rw [h.content_request]
  obtain ⟨fields, hcontent, hfields⟩ := h.content_preparePayload
    (p.request.headers.toList.foldl (fun req a => http.set req a.1 a.2)
      (http.set (if p.request.type = .post then
        http.setBody (http.request p.request.type p.uri 11) p.request.body
        else http.request p.request.type p.uri 11) "Host".toList p.host))
  rw [h.content_setAll, h.content_set, hbody] at hcontent hfields
  exact ⟨fields, hcontent, hfields⟩

end Messages.Lawful

/-- The names of the fields that the library or the connection needs for itself. -/
def reserved : List Str :=
  ["Host".toList, contentLength, transferEncoding, "Connection".toList, upgrade]

/-- A request for `target` at an authority `host` or `host:port`, with headers of its own. -/
structure Plain (req : HttpClient) (authority target : Str) : Prop where
  url : req.url = "http://".toList ++ (authority ++ target)
  authority : '/' ∉ authority
  target : ['/'] <+: target
  type : req.type = .get ∧ req.body = [] ∨ req.type = .post ∨ req.type = .put
  distinct : ∀ m ∈ req.headers, ∀ n ∈ req.headers, iequals m n → m = n
  unreserved : ∀ n ∈ req.headers, ∀ r ∈ reserved, ¬ iequals n r

theorem mem_of_mem_toList {headers : StdMap Str Str} {p : Str × Str} (hp : p ∈ headers.toList) :
    p.1 ∈ headers := by
  rw [StdMap.mem_iff_getElem?_ne_none, Std.ExtTreeMap.mem_toList_iff_getElem?_eq_some.mp hp]
  simp

namespace Plain

variable {req : HttpClient} {authority target : Str} (h : Plain req authority target)

include h

theorem correctUrl : Client.correctUrl req.url := by
  rw [correctUrl_iff, h.url]
  exact .inl (List.prefix_append _ _)

/-- The constructor of `params` finds the target. -/
theorem params_eq_some : ∃ p, params req = some p ∧ p.uri = target ∧ p.request = req := by
  have hafter : afterScheme req.url = authority ++ target := by
    rw [h.url]
    rfl
  obtain ⟨rest, htarget⟩ := h.target
  have hslash : '/' ∈ afterScheme req.url := by simp [hafter, ← htarget]
  have hindex : (afterScheme req.url).idxOf '/' = authority.length := by
    rw [hafter, ← htarget, List.idxOf_append, if_neg h.authority]
    simp
  refine ⟨_, (params_eq h.correctUrl).trans (if_pos hslash), ?_, rfl⟩
  rw [hindex, hafter]
  exact List.drop_left

theorem pairwise_headers :
    req.headers.toList.Pairwise fun p q => ¬ iequals p.1 q.1 := by
  refine Std.ExtTreeMap.distinct_keys_toList.imp_of_mem ?_
  intro p q hp hq hne hi
  have heq : p.1 = q.1 :=
    h.distinct p.1 (mem_of_mem_toList hp) q.1 (mem_of_mem_toList hq) hi
  exact hne (Std.LawfulEqCmp.compare_eq_iff_eq.mpr heq)

/-- Each of the given headers is found with its value. -/
theorem lookup_fields {p : Params} (hp : p.request = req) {name value : Str}
    (hvalue : req.headers[name]? = some value) : List.lookup name p.fields = some value := by
  have hmem : (name, value) ∈ p.request.headers.toList := by
    rw [hp]
    exact Std.ExtTreeMap.mem_toList_iff_getElem?_eq_some.mpr hvalue
  have hpairs := h.pairwise_headers
  rw [← hp] at hpairs
  exact Fields.lookup_setAll_of_mem hpairs hmem _

/-- No field asks for an upgrade. -/
theorem lookup_upgrade {p : Params} (hp : p.request = req) {name : Str}
    (hname : iequals name upgrade) : List.lookup name p.fields = none := by
  have hheaders : ∀ q ∈ p.request.headers.toList, ¬ iequals name q.1 := by
    rw [hp]
    intro q hq hi
    exact h.unreserved q.1 (mem_of_mem_toList hq) upgrade (by decide)
      ((iequals_symm hi).trans hname)
  have hhost : ¬ iequals name "Host".toList := by
    intro hi
    have hne : ¬ iequals "Host".toList upgrade := by decide
    exact hne ((iequals_symm hi).trans hname)
  rw [Params.fields, Fields.lookup_setAll_of_forall_not hheaders,
    Fields.lookup_set_of_not hhost]
  rfl

end Plain

/-! ### The way of one request -/

/-- `webClient` in a build. -/
def webClientOf (net : Network ρ) (http : HttpRequest ρ) :
    Build → HttpClient → Option (HttpConnect ρ)
  | .async => Async.webClient net http
  | .coro => Coro.webClient net http

/-- `fetch` writes a request that arrives as `r`. -/
def Sent (msg : Messages ρ) (http : HttpRequest ρ) (net : Network ρ) (client : Build)
    (req : HttpClient) (r : Request) : Prop :=
  ∃ c m, fetch (webClientOf net http client) req = some c ∧ m ∈ c.written ∧
    r = msg.delivered m

/-- The handler calls of a new session for the first request that it reads. -/
def handlerCallsOf (http : Http σ) (lessenAll : Bool) (a : Arrival F A) :
    Build → List (F × DataRequest A)
  | .async => Server.handlerCalls ((Server.Async.HttpServer.init lessenAll).onRead http a).log
  | .coro => Server.handlerCalls ((Server.Coro.Session.init lessenAll).onRead http a).log

/-- The handler is passed the target, its parameters, and the body and every header that the
client was given. -/
structure Received (req : HttpClient) (target : Str) (d : DataRequest A) : Prop where
  uri : d.uri = target
  params : d.params = queryParams target
  body : d.body = req.body
  headers : ∀ name value : Str, req.headers[name]? = some value → d.headers[name]? = some value

theorem handlerCallsOf_eq (http : Http σ) (lessenAll : Bool) (a : Arrival F A) (build : Build) :
    handlerCallsOf http lessenAll a build =
      (handling http lessenAll .empty none a).called.toList := by
  have hevents := Server.Handling.handlerCalls_events http a.req
    (handling http lessenAll .empty none a)
  cases build with
  | async =>
    have hlog := (Server.Async.HttpServer.onRead_follows http (.init lessenAll) a).1
    rw [handlerCallsOf, hlog]
    exact hevents
  | coro =>
    have hlog := (Server.Coro.Session.onRead_follows http (.init lessenAll) a).1
    rw [handlerCallsOf, hlog]
    exact hevents

/-- Whatever is written is the request that was built. -/
theorem eq_buildRequest_of_written {net : Network ρ} {http : HttpRequest ρ} {client : Build}
    {req : HttpClient} {c : HttpConnect ρ} {m : ρ} {p : Params} (hurl : correctUrl req.url)
    (hp : params req = some p) (hc : fetch (webClientOf net http client) req = some c)
    (hm : m ∈ c.written) : m = buildRequest http p := by
  have hprefix : c.written <+: [buildRequest http p] := by
    rw [fetch, if_neg (by simp [hurl])] at hc
    cases client with
    | async =>
      obtain rfl : Async.run p.stream net http p = c := by
        simpa [webClientOf, Async.webClient, webClient, hp] using hc
      exact Async.written_run p.stream net http p
    | coro =>
      obtain rfl : Coro.run p.stream net http p = c := by
        simpa [webClientOf, Coro.webClient, webClient, hp] using hc
      exact Coro.written_run p.stream net http p
  exact List.mem_singleton.mp (List.IsPrefix.subset hprefix hm)

/-- What of the client's request a server reads. -/
structure Arrived (req : HttpClient) (target : Str) (r : Request) : Prop where
  method : r.method = req.type
  target : r.target = target
  isUpgrade : r.isUpgrade = false
  body : r.body = req.sentBody
  headers : ∀ name value, req.headers[name]? = some value → List.lookup name r.base = some value

theorem Plain.arrived {msg : Messages ρ} {http : HttpRequest ρ} (hlaw : msg.Lawful http)
    {net : Network ρ} {client : Build} {req : HttpClient} {authority target : Str}
    (h : Plain req authority target) {r : Request} (hsent : Sent msg http net client req r) :
    Arrived req target r := by
  obtain ⟨c, m, hc, hm, rfl⟩ := hsent
  obtain ⟨p, hp, huri, hreq⟩ := h.params_eq_some
  obtain rfl := eq_buildRequest_of_written h.correctUrl hp hc hm
  obtain ⟨fields, hcontent, hfields⟩ := hlaw.content_buildRequest p
  -- the framing is what `prepare_payload` may have changed
  have hlookup {name : Str} (hlength : ¬ iequals name contentLength)
      (hencoding : ¬ iequals name transferEncoding) :
      List.lookup name (msg.content (buildRequest http p)).fields = List.lookup name p.fields := by
    rw [hcontent]
    exact hfields name hlength hencoding
  constructor
  · rw [hlaw.method_delivered, hcontent, hreq]
  · rw [hlaw.target_delivered, hcontent, huri]
  · by_contra hup
    obtain ⟨name, hname, hfound⟩ := hlaw.isUpgrade_delivered _ (by simpa using hup)
    have hlength : ¬ iequals upgrade contentLength := by decide
    have hencoding : ¬ iequals upgrade transferEncoding := by decide
    rw [hlookup (fun hi => hlength ((iequals_symm hname).trans hi))
      (fun hi => hencoding ((iequals_symm hname).trans hi)), h.lookup_upgrade hreq hname] at hfound
    exact hfound rfl
  · rw [hlaw.body_delivered, hcontent, hreq]
  · intro name value hvalue
    have hname : name ∈ req.headers := by
      rw [StdMap.mem_iff_getElem?_ne_none, hvalue]
      simp
    rw [hlaw.base_delivered, hlookup (h.unreserved name hname _ (by simp [reserved]))
      (h.unreserved name hname _ (by simp [reserved]))]
    exact h.lookup_fields hreq hvalue

/-- The handler is passed everything, but for a body that was not sent. -/
theorem Arrived.received_fill_iff {req : HttpClient} {target : Str} {a : Arrival F A}
    (h : Arrived req target a.req) (info : Endpoint) (nextLocation : Str) :
    Received req target (DataRequest.empty.fill a info nextLocation) ↔
      req.sentBody = req.body := by
  constructor
  · intro hreceived
    calc req.sentBody = a.req.body := h.body.symm
      _ = req.body := hreceived.body
  · intro hbody
    constructor
    · exact h.target
    · change (parsed a.req.target).uriParam = queryParams target
      rw [Server.parseUrl_uriParam (Server.parseUrl_eq_parsed a.req.target), h.target]
    · exact h.body.trans hbody
    · intro name value hvalue
      change (StdMap.emplaceAll ∅ a.req.base)[name]? = some value
      rw [StdMap.getElem?_emplaceAll, h.headers name value hvalue]
      simp

theorem Plain.sentBody_eq_iff {req : HttpClient} {authority target : Str}
    (h : Plain req authority target) :
    req.sentBody = req.body ↔ (req.type = .put → req.body = []) := by
  unfold HttpClient.sentBody
  rcases h.type with ⟨hget, hempty⟩ | hpost | hput
  · simp [hget, hempty]
  · simp [hpost]
  · simp [hput, eq_comm]

/-- A plain request that the client has written to a new session reaches the handler that is
registered for it, in either build of the client and of the server. The handler is passed what
the client was given exactly if it is no `PUT` with a body. -/
theorem received_iff {msg : Messages ρ} {http : HttpRequest ρ} (hlaw : msg.Lawful http)
    (res : Http σ) {net : Network ρ} (client server : Build) {req : HttpClient}
    {authority target : Str} (h : Plain req authority target) {a : Arrival F A}
    (hsent : Sent msg http net client req a.req) (hremote : a.remote ≠ none) {lessenAll : Bool}
    (hreached : Reached a.H false (ownLocation lessenAll target)) :
    (∃ f d, handlerCallsOf res lessenAll a server = [(f, d)] ∧ Received req target d) ↔
      (req.type = .put → req.body = []) := by
  have harrived := h.arrived hlaw hsent
  obtain ⟨info, hinfo⟩ := Option.ne_none_iff_exists'.mp hremote
  have hdispatched : a.req.method.dispatched := by
    rw [harrived.method]
    rcases h.type with ⟨hget, -⟩ | hpost | hput
    · rw [hget]; rfl
    · rw [hpost]; rfl
    · rw [hput]; rfl
  rw [← harrived.target] at hreached
  obtain ⟨f, nextLocation, hcall⟩ := Server.handling_of_reached res hdispatched hinfo
    harrived.isUpgrade hreached .empty none
  have hcalls : handlerCallsOf res lessenAll a server =
      [(f, DataRequest.empty.fill a info nextLocation)] := by
    rw [handlerCallsOf_eq, hcall]
    rfl
  rw [hcalls, ← h.sentBody_eq_iff, ← harrived.received_fill_iff info nextLocation]
  constructor
  · rintro ⟨f', d, heq, hreceived⟩
    obtain ⟨-, rfl⟩ := Prod.mk.inj (List.singleton_inj.mp heq)
    exact hreceived
  · exact fun hreceived => ⟨f, _, rfl, hreceived⟩

/-! ### One request -/

namespace Content

/-- The library over plain contents. A length is announced where there is a body, and for the
methods that are expected to have one. -/
def http : HttpRequest Content where
  request type uri _ := ⟨type, uri, [], []⟩
  set req name value := { req with fields := req.fields.set name value }
  setBody req body := { req with body := body }
  preparePayload req :=
    if req.body ≠ [] ∨ req.method = .post ∨ req.method = .put then
      { req with fields := req.fields.set contentLength (Nat.repr req.body.length).toList }
    else req

def messages : Messages Content where
  content := id
  delivered req := ⟨req.method, req.target, 11, req.fields, true,
    req.fields.any fun p => iequals p.1 upgrade, req.body⟩

theorem messages_lawful : messages.Lawful http where
  content_request _ _ _ := rfl
  content_set _ _ _ := rfl
  content_setBody _ _ := rfl
  content_preparePayload req := by
    simp only [http]
    split
    · exact ⟨_, rfl, fun name hlength _ => Fields.lookup_set_of_not hlength _ _⟩
    · exact ⟨_, rfl, fun _ _ _ => rfl⟩
  method_delivered _ := rfl
  target_delivered _ := rfl
  base_delivered _ := rfl
  body_delivered _ := rfl
  isUpgrade_delivered req hup := by
    obtain ⟨p, hp, hname⟩ := List.any_eq_true.mp hup
    refine ⟨p.1, of_decide_eq_true hname, fun hnone => ?_⟩
    have hne := List.lookup_eq_none_iff.mp hnone p hp
    simp at hne

end Content

/-- A network on which every call succeeds. -/
def connected : Network Content where
  setHostName _ := .ok ()
  resolve _ _ := .success
  connect := .success
  handshake := .success
  write _ := .success
  read := (.success, ⟨200, [], []⟩)
  shutdown := .success

/-- A request with a header and a body for `/a?k=v` at `h:8080`. -/
def withBody (type : Verb) : HttpClient :=
  ⟨"http://h:8080/a?k=v".toList, "x".toList, StdMap.emplace ∅ "X".toList "1".toList, type⟩

/-- It arrives at a server with a handler for `/a`, with this length and body. -/
def arrivalOf (type : Verb) (length body : Str) : Arrival Nat Unit where
  req := ⟨type, "/a?k=v".toList, 11, [("Host".toList, "h".toList), ("X".toList, "1".toList),
    (contentLength, length)], true, false, body⟩
  rest := []
  H := StdMap.emplace ∅ "/a".toList 0
  remote := some ⟨"127.0.0.1".toList, 4000⟩
  reply := ⟨.empty, .ok ⟨[], ∅, []⟩⟩

theorem plain_withBody {type : Verb} (h : type = .post ∨ type = .put) :
    Plain (withBody type) "h:8080".toList "/a?k=v".toList := by
  have hname : ∀ n ∈ StdMap.emplace ∅ "X".toList "1".toList, n = "X".toList := by
    intro n hn
    by_contra hne
    rw [StdMap.mem_iff_getElem?_ne_none, StdMap.getElem?_emplace, if_neg hne] at hn
    exact hn Std.ExtTreeMap.getElem?_empty
  constructor
  · rfl
  · decide
  · decide
  · exact .inr h
  · intro m hm n hn _
    rw [hname m hm, hname n hn]
  · intro n hn
    rw [hname n hn]
    decide

/-- The handler is registered for the target. -/
theorem reached_arrivalOf (type : Verb) (length body : Str) :
    Reached (arrivalOf type length body).H false (ownLocation false "/a?k=v".toList) :=
  ⟨2, by decide, by decide, by decide,
    (by decide : Server.handlerKey false "/a".toList ∈ StdMap.emplace ∅ "/a".toList 0)⟩

theorem received_iff_post :
    (∃ f d, handlerCallsOf Server.Message.http false (arrivalOf .post "1".toList "x".toList)
        .async = [(f, d)] ∧ Received (withBody .post) "/a?k=v".toList d) ↔
      ((withBody .post).type = .put → (withBody .post).body = []) := by
  have hsent : Sent Content.messages Content.http connected .coro (withBody .post)
      (arrivalOf .post "1".toList "x".toList).req :=
    ⟨_, _, rfl, List.mem_singleton_self _, rfl⟩
  exact received_iff Content.messages_lawful Server.Message.http .coro .async
    (plain_withBody (.inl rfl)) hsent (by simp [arrivalOf])
    (reached_arrivalOf .post "1".toList "x".toList)

/-- The handler is passed no body. -/
theorem not_received_put (server : Build) :
    ¬ ∃ f d, handlerCallsOf Server.Message.http false (arrivalOf .put "0".toList []) server =
      [(f, d)] ∧ Received (withBody .put) "/a?k=v".toList d := by
  rintro ⟨f, d, hcalls, hreceived⟩
  have hbody : (handlerCallsOf Server.Message.http false (arrivalOf .put "0".toList [])
      server).map (fun call => call.2.body) = [[]] := by
    rw [handlerCallsOf_eq]
    rfl
  rw [hcalls] at hbody
  have hempty : d.body = [] := List.singleton_inj.mp hbody
  rw [hreceived.body] at hempty
  cases hempty

/-- Both builds of the client send a `PUT` without its body, with the length zero, and so it
reaches the handler in neither build of the server. -/
theorem put_body_dropped :
    Plain (withBody .put) "h:8080".toList "/a?k=v".toList ∧
      Sent Content.messages Content.http connected .async (withBody .put)
        (arrivalOf .put "0".toList []).req ∧
      Sent Content.messages Content.http connected .coro (withBody .put)
        (arrivalOf .put "0".toList []).req ∧
      (arrivalOf .put "0".toList []).remote ≠ none ∧
      Reached (arrivalOf .put "0".toList []).H false (ownLocation false "/a?k=v".toList) ∧
      (¬ ∃ f d, handlerCallsOf Server.Message.http false (arrivalOf .put "0".toList []) .async =
        [(f, d)] ∧ Received (withBody .put) "/a?k=v".toList d) ∧
      ¬ ∃ f d, handlerCallsOf Server.Message.http false (arrivalOf .put "0".toList []) .coro =
        [(f, d)] ∧ Received (withBody .put) "/a?k=v".toList d := by
  refine ⟨plain_withBody (.inr rfl), ?_, ?_, by simp [arrivalOf], reached_arrivalOf .put _ _,
    not_received_put .async, not_received_put .coro⟩
  · exact ⟨_, _, rfl, List.mem_singleton_self _, rfl⟩
  · exact ⟨_, _, rfl, List.mem_singleton_self _, rfl⟩

end FHT.Client
