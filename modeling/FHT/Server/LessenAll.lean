import Mathlib.Logic.Function.Basic
import FHT.Server.Dispatch
import FHT.Server.Release

/-!
# The flag of `lessenAll`

`Server::lessenAll` sets a static flag, which the constructor of `HttpServer` copies. The
asynchronous server constructs one for each accepted connection. The coroutine server constructs
one in `Server::run`, and all sessions of its listener read the copy made there.

## Main definitions

- `destination` — the handler that a request is to be routed to by a flag
- `Routed` — what a server does with a request that it routes to a handler

## Main results

- `routed_iff` — the requests that are routed by the last call before their connection was accepted
-/

namespace FHT.Server

variable {ρ F A : Type}

/-- The keys that the routing loop looks up, in its order, while it finds none. -/
def keys (isWS : Bool) (L : Str) : Nat → List Str
  | 0 => []
  | i + 1 =>
    if IsCut L (i + 1) then segmentKey isWS (L.take (i + 1)) :: keys isWS L i
    else keys isWS L i

/-- The loop finds the handler of the first key that is registered. -/
theorem select_eq_findSome? (H : StdMap Str F) (isWS : Bool) (L : Str) (i : Nat) :
    (select H isWS L i).map Prod.fst = (keys isWS L i).findSome? (fun key => H[key]?) := by
  induction i with
  | zero => rfl
  | succ i ih =>
    rw [select, keys, handlerKey_eq]
    split
    · rw [List.findSome?_cons]
      cases H[segmentKey isWS (L.take (i + 1))]? with
      | none => exact ih
      | some f => rfl
    · exact ih

/-- The keys for a target: only `head` or `wshead`, or those of its own location. -/
def keysBy (flag isWS : Bool) (target : Str) : List Str :=
  if flag then [segmentKey isWS "head".toList]
  else keys isWS (location target) (location target).length

/-- Where a request is to go by `flag`: to the handler of the first of the keys that is registered.
An empty location has no keys, and the handler stays that was `left` before. -/
def destination (flag : Bool) (left : Option F) (a : Arrival F A) : Option F :=
  if flag = false ∧ location a.req.target = [] then left
  else (keysBy flag a.req.isUpgrade a.req.target).findSome? fun key => a.H[key]?

/-- What a server does with a request that it routes to `dest`: it waits for the handshake of the
handler, calls it, or answers that there is none. -/
def Routed (http : Http ρ) (a : Arrival F A) (dest : Option F) (log log' : List (Event ρ F A))
    (accepting : Option F) : Prop :=
  match dest with
  | none => log' = log ++ [.response (http.notFound a.req "Unknown HTTP handler".toList)]
  | some f =>
    if a.req.isUpgrade then log' = log ∧ accepting = some f
    else ∃ d answer, log' = log ++ .handler f d :: answer

/-- A request is routed to one handler. -/
theorem Routed.unique {http : Http ρ} {a : Arrival F A} {dest dest' : Option F}
    {log log' : List (Event ρ F A)} {accepting : Option F}
    (h : Routed http a dest log log' accepting) (h' : Routed http a dest' log log' accepting) :
    dest = dest' := by
  unfold Routed at h h'
  cases hup : a.req.isUpgrade with
  | true =>
    cases dest <;> cases dest' <;> simp_all
  | false =>
    rw [hup] at h h'
    rcases dest with _ | f <;> rcases dest' with _ | f'
    · rfl
    · obtain ⟨d, answer, rfl⟩ := h'
      simp at h
    · obtain ⟨d, answer, rfl⟩ := h
      simp at h'
    · obtain ⟨d, answer, rfl⟩ := h
      obtain ⟨d', answer', heq⟩ := h'
      obtain ⟨⟨rfl, -⟩, -⟩ : (f = f' ∧ d = d') ∧ answer = answer' := by simpa using heq
      rfl

theorem keys_head (isWS : Bool) :
    keys isWS "head".toList "head".toList.length = [segmentKey isWS "head".toList] := by
  cases isWS <;> decide

/-- The routing of either server goes where its flag says. -/
theorem routing_fst (lessenAll : Bool) (func : Option F) (a : Arrival F A) :
    (routing lessenAll func a).1 = destination lessenAll func a := by
  have hrouted : ∀ L, (routed L (select a.H a.req.isUpgrade L L.length)).1 =
      (keys a.req.isUpgrade L L.length).findSome? (fun key => a.H[key]?) := by
    intro L
    rw [← select_eq_findSome?]
    cases select a.H a.req.isUpgrade L L.length <;> rfl
  rw [routing, destination, keysBy, ownLocation_eq]
  cases lessenAll with
  | true =>
    rw [← keys_head]
    exact hrouted _
  | false =>
    simp only [Bool.false_eq_true, if_false, true_and]
    split
    · rfl
    · exact hrouted _

/-- The events of the handling are those of the route, if the handshake is begun for the handler
that was found. -/
theorem routed_of_handling (http : Http ρ) {lessenAll : Bool} {d : DataRequest A} {func : Option F}
    {a : Arrival F A} (hm : a.req.method.dispatched) (hremote : a.remote ≠ none)
    {log log' : List (Event ρ F A)} {accepting : Option F}
    (hlog : log' = log ++ (handling http lessenAll d func a).events http a.req)
    (haccepting : ∀ info f nextLocation, a.remote = some info → a.req.isUpgrade = true →
      routing lessenAll func a = (some f, nextLocation) → accepting = some f) :
    Routed http a (destination lessenAll func a) log log' accepting := by
  obtain ⟨info, hinfo⟩ := Option.ne_none_iff_exists'.mp hremote
  rw [← routing_fst, hlog, handling, if_pos hm, hinfo]
  rcases hrouting : routing lessenAll func a with ⟨_ | f, nextLocation⟩
  · rfl
  · rw [Routed]
    split
    · next hup =>
      refine ⟨?_, haccepting info f nextLocation hinfo hup hrouting⟩
      simp [Handling.events, Handling.called, Handling.response]
    · exact ⟨_, _, rfl⟩

/-- Two flags send a request to the same handler if they are the same, or if it does not matter for
this request. -/
theorem destination_eq_iff (flag flag' : Bool) (left : Option F) (a : Arrival F A) :
    destination flag left a = destination flag' left a ↔
      flag = flag' ∨ destination true left a = destination false left a := by
  cases flag <;> cases flag' <;> simp [eq_comm]

/-- The flag of `Server`, the listener that `run` has started, and the connections that it has
accepted, each named by its accept. -/
structure ServerState (L σ : Type) where
  lessenAll : Bool
  listener : Option L
  connections : Nat → Option σ

/-- The calls on a server and the events of its listener; `run` may fail to listen. -/
inductive ServerAction (F A : Type)
  | run (listens : Bool)
  | lessenAll (flag : Bool)
  | accept (i : Nat)
  | conn (i : Nat) (act : Action F A)

/-- What differs between the builds: what `run` makes of the flag, the connection made of the
flag and the listener, and how it goes on. -/
structure Sessions (L σ F A : Type) where
  listen (lessenAll : Bool) : L
  accept (lessenAll : Bool) (listener : L) : σ
  step : Machine σ (Action F A)

/-- The asynchronous server: the constructor runs in `on_accept`. -/
def Async.sessions (http : Http ρ) : Sessions Unit (Async.HttpServer ρ F A) F A where
  listen _ := ()
  accept lessenAll _ := .init lessenAll
  step := Async.HttpServer.step http

/-- The coroutine server: the constructor runs in `run`. -/
def Coro.sessions (http : Http ρ) : Sessions Bool (Coro.Session ρ F A) F A where
  listen lessenAll := lessenAll
  accept _ listener := .init listener
  step := Coro.Session.step http

/-- The flags of the last call of `lessenAll`, and of the last one before the last `run`. -/
def flags (acts : List (ServerAction F A)) : Bool × Option Bool :=
  acts.foldl (fun p a =>
    match a with
    | .run _ => (p.1, some p.1)
    | .lessenAll flag => (flag, p.2)
    | .accept _ | .conn _ _ => p) (false, none)

namespace ServerState

variable {L σ : Type}

/-- Before the first call. -/
def init : ServerState L σ := ⟨false, none, fun _ => none⟩

/-- `run` gives up the old `io_context`, and with it the listener and the connections. -/
def step (b : Sessions L σ F A) : Machine (ServerState L σ) (ServerAction F A) :=
  fun s a =>
    match a with
    | .run listens => some { s with
        listener := if listens then some (b.listen s.lessenAll) else none
        connections := fun _ => none }
    | .lessenAll flag => some { s with lessenAll := flag }
    | .accept i =>
      match s.listener, s.connections i with
      | some l, none => some { s with
          connections := Function.update s.connections i (some (b.accept s.lessenAll l)) }
      | _, _ => none
    | .conn i act =>
      match s.connections i with
      | some c => (b.step c act).map fun c' =>
        { s with connections := Function.update s.connections i (some c') }
      | none => none

/-- The flag and the listener after a run. -/
theorem run_flags (b : Sessions L σ F A) {acts : List (ServerAction F A)} {s : ServerState L σ}
    (hrun : (step b).run init acts = some s) :
    s.lessenAll = (flags acts).1 ∧
      ∀ l, s.listener = some l → ∃ flag, (flags acts).2 = some flag ∧ l = b.listen flag := by
  refine Machine.run_history (P := fun _ => True) (I := fun acts s =>
    s.lessenAll = (flags acts).1 ∧
      ∀ l, s.listener = some l → ∃ flag, (flags acts).2 = some flag ∧ l = b.listen flag)
    ?_ ⟨rfl, by simp [init]⟩ (fun _ _ => trivial) hrun
  intro acts s a t ⟨hflag, hlistener⟩ _ hstep
  rw [flags, List.foldl_append]
  cases a with
  | run listens =>
    obtain rfl := Option.some.inj hstep
    refine ⟨hflag, fun l hl => ⟨s.lessenAll, congrArg some hflag.symm, ?_⟩⟩
    cases listens with
    | true => exact (Option.some.inj hl).symm
    | false => cases hl
  | lessenAll flag =>
    obtain rfl := Option.some.inj hstep
    exact ⟨rfl, hlistener⟩
  | accept i =>
    simp only [step] at hstep
    split at hstep
    · obtain rfl := Option.some.inj hstep
      exact ⟨hflag, hlistener⟩
    · cases hstep
  | conn i act =>
    simp only [step] at hstep
    split at hstep
    · obtain ⟨c', _, rfl⟩ := Option.map_eq_some_iff.mp hstep
      exact ⟨hflag, hlistener⟩
    · cases hstep

/-- What every step of a connection preserves holds of one as long as it is there, if it holds
when it is accepted. -/
theorem run_connection (b : Sessions L σ F A) {P : σ → Prop}
    (hP : ∀ c act c', P c → b.step c act = some c' → P c') {i : Nat}
    {acts : List (ServerAction F A)} (hacts : .accept i ∉ acts) {s t : ServerState L σ}
    (hs : ∀ c, s.connections i = some c → P c) (hrun : (step b).run s acts = some t) :
    ∀ c, t.connections i = some c → P c := by
  refine Machine.run_history (P := fun a => a ≠ .accept i)
    (I := fun _ s => ∀ c, s.connections i = some c → P c) ?_ hs ?_ hrun
  · intro _ s a t hs ha hstep c hc
    cases a with
    | run listens =>
      obtain rfl := Option.some.inj hstep
      cases hc
    | lessenAll flag =>
      obtain rfl := Option.some.inj hstep
      exact hs c hc
    | accept j =>
      have hij : i ≠ j := fun h => ha (h ▸ rfl)
      simp only [step] at hstep
      split at hstep
      · obtain rfl := Option.some.inj hstep
        dsimp only at hc
        rw [Function.update_of_ne hij] at hc
        exact hs c hc
      · cases hstep
    | conn j act =>
      simp only [step] at hstep
      split at hstep
      · next c₀ hc₀ =>
        obtain ⟨c', hc', rfl⟩ := Option.map_eq_some_iff.mp hstep
        dsimp only at hc
        by_cases hij : i = j
        · subst hij
          rw [Function.update_self] at hc
          obtain rfl := Option.some.inj hc
          exact hP c₀ act c' (hs c₀ hc₀) hc'
        · rw [Function.update_of_ne hij] at hc
          exact hs c hc
      · cases hstep
  · exact fun a ha h => hacts (h ▸ ha)

/-- An action of a connection is a step of it. -/
theorem step_conn (b : Sessions L σ F A) {s t : ServerState L σ} {i : Nat} {act : Action F A}
    {c c' : σ} (hstep : step b s (.conn i act) = some t) (hc : s.connections i = some c)
    (hc' : t.connections i = some c') : b.step c act = some c' := by
  rw [step, hc] at hstep
  obtain ⟨d, hd, rfl⟩ := Option.map_eq_some_iff.mp hstep
  dsimp only at hc'
  rw [Function.update_self] at hc'
  rw [hd, hc']

end ServerState

namespace Async.HttpServer

/-- The handler whose handshake is pending. -/
def accepting (h : HttpServer ρ F A) : Option F := if h.pending = .accept then h.func else none

/-- `on_read` routes by the flag of the connection. -/
theorem onRead_routed (http : Http ρ) (h : HttpServer ρ F A) {a : Arrival F A}
    (hm : a.req.method.dispatched) (hremote : a.remote ≠ none) :
    Routed http a (destination h.lessenAll h.func a) h.log (h.onRead http a).log
      (h.onRead http a).accepting := by
  refine routed_of_handling http hm hremote (h.onRead_follows http a).1 ?_
  intro info f nextLocation hinfo hup hrouting
  rw [h.onRead_upgrade http hm hinfo hup hrouting]
  rfl

/-- A call on the subscriber touches the stream, the subscriber and the log. -/
theorem userOp_lessenAll {h h' : HttpServer ρ F A} {op : UserOp} (heq : h.userOp op = some h') :
    h'.lessenAll = h.lessenAll := by
  cases op with
  | stop closes =>
    cases hws : h.ws <;> cases closes <;>
      · simp only [userOp, close, useWs, hws, if_true, Bool.false_eq_true, if_false,
          Option.bind_eq_bind, Option.bind_some, Option.some.injEq] at heq
        rw [← heq]
  | getPublisher str =>
    cases hws : h.ws with
    | false =>
      obtain rfl : h = h' := by simpa [userOp, publisher, hws] using heq
      rfl
    | true =>
      obtain rfl : h.record (.published str) = h' := by
        simpa [userOp, publisher, useWs, hws] using heq
      rfl
  | setSubscriber functor | setDeleter functor =>
    obtain rfl := Option.some.inj heq
    rfl

theorem callUser_lessenAll (h u : HttpServer ρ F A) (run : UserRun)
    {next : HttpServer ρ F A → Option (HttpServer ρ F A)}
    (hnext : ∀ v, v.lessenAll = h.lessenAll → (h.orCrash (next v)).lessenAll = h.lessenAll)
    (hu : u.lessenAll = h.lessenAll) :
    (h.orCrash (u.callUser run next)).lessenAll = h.lessenAll := by
  have hops : ∀ ops (u v : HttpServer ρ F A), u.userOps ops = some v →
      v.lessenAll = u.lessenAll := by
    intro ops
    induction ops with
    | nil =>
      intro u v huv
      obtain rfl : u = v := by simpa [userOps] using huv
      rfl
    | cons op ops ih =>
      intro u v huv
      obtain ⟨w, hw, hv⟩ : ∃ w, u.userOp op = some w ∧ w.userOps ops = some v := by
        simpa [userOps, List.foldlM_cons, Option.bind_eq_some_iff] using huv
      exact (ih w v hv).trans (userOp_lessenAll hw)
  obtain ⟨v, huv, _⟩ := u.userOps_safe run.ops
  have hv := (hops _ _ _ huv).trans hu
  rw [callUser, huv]
  cases run.thrown with
  | some e => exact hv
  | none => exact hnext v hv

theorem doReadWs_lessenAll {h v : HttpServer ρ F A} (hv : v.lessenAll = h.lessenAll) :
    (h.orCrash v.doReadWs).lessenAll = h.lessenAll := by
  rw [doReadWs, useWs]
  cases v.ws with
  | true => exact hv
  | false => rfl

/-- A connection keeps the flag that it was made with. -/
theorem step_lessenAll (http : Http ρ) {h t : HttpServer ρ F A} {act : Action F A}
    (hstep : step http h act = some t) : t.lessenAll = h.lessenAll := by
  have hcase := step_eq_some hstep
  cases act with
  | read a =>
    obtain ⟨_, rfl⟩ := hcase
    exact (h.onRead_follows http a).2.2
  | readError endOfStream =>
    obtain ⟨_, rfl⟩ := hcase
    rfl
  | written ok =>
    obtain ⟨close, _, rfl⟩ := hcase
    cases ok <;> cases close <;> rfl
  | accepted ok handler =>
    obtain ⟨_, rfl⟩ := hcase
    cases ok with
    | false => rfl
    | true =>
      cases hf : h.func with
      | none =>
        have hcrash : h.onAcceptWs true handler = none := by simp [onAcceptWs, hf]
        rw [hcrash]
        rfl
      | some f =>
        obtain ⟨u, d, heq, _, _, hu⟩ := onAcceptWs_calls hf handler
        rw [heq]
        exact callUser_lessenAll h u handler.run (fun _ => doReadWs_lessenAll) hu
  | message text payload run =>
    obtain ⟨_, rfl⟩ := hcase
    cases hws : h.ws with
    | false =>
      rw [onReadWs_of_released hws]
      rfl
    | true =>
      cases hcalls : h.calls text with
      | false =>
        rw [onReadWs_of_not_calls hcalls]
        exact doReadWs_lessenAll rfl
      | true =>
        obtain ⟨u, heq, _, _, hu⟩ := onReadWs_calls hcalls hws payload run
        rw [heq]
        exact callUser_lessenAll h u run (fun _ => doReadWs_lessenAll) hu
  | wsError run =>
    obtain ⟨_, rfl⟩ := hcase
    rw [onReadWsError]
    split
    · exact callUser_lessenAll h _ run (fun _ hv => hv) rfl
    · rfl
  | user op =>
    obtain ⟨_, rfl⟩ := hcase
    obtain ⟨h', heq, _⟩ := h.userOp_safe op
    rw [heq]
    exact userOp_lessenAll heq

end Async.HttpServer

namespace Coro.Session

/-- The handler whose handshake is pending. -/
def accepting (s : Session ρ F A) : Option F := if s.pending = .accept then s.func else none

/-- A pass of the loop routes by the flag of the session. -/
theorem onRead_routed (http : Http ρ) (s : Session ρ F A) {a : Arrival F A}
    (hm : a.req.method.dispatched) (hremote : a.remote ≠ none) :
    Routed http a (destination s.lessenAll none a) s.log (s.onRead http a).log
      (s.onRead http a).accepting := by
  refine routed_of_handling http hm hremote (s.onRead_follows http a).1 ?_
  intro info f nextLocation hinfo hup hrouting
  rw [s.onRead_upgrade http hm hinfo hup hrouting]
  rfl

theorem userOps_lessenAll (s : Session ρ F A) (ops : List UserOp) :
    (s.userOps ops).lessenAll = s.lessenAll := by
  induction ops generalizing s with
  | nil => rfl
  | cons op ops ih =>
    refine (ih (s.userOp op)).trans ?_
    cases op with
    | stop closes =>
      rw [userOp]
      split <;> rfl
    | getPublisher | setSubscriber | setDeleter => rfl

theorem answer_lessenAll (http : Http ρ) (s : Session ρ F A) (returns : Bool)
    (answered : Except Thrown ρ) : (s.answer http returns answered).lessenAll = s.lessenAll := by
  cases answered <;> rfl

theorem callUser_lessenAll (http : Http ρ) (s : Session ρ F A) (run : UserRun)
    {next : Session ρ F A → Session ρ F A} (hnext : ∀ v, (next v).lessenAll = v.lessenAll) :
    (s.callUser http run next).lessenAll = s.lessenAll := by
  rw [callUser]
  cases run.thrown with
  | some e => exact (answer_lessenAll ..).trans (s.userOps_lessenAll run.ops)
  | none => exact (hnext _).trans (s.userOps_lessenAll run.ops)

/-- A session keeps the flag of its listener. -/
theorem step_lessenAll (http : Http ρ) {s t : Session ρ F A} {act : Action F A}
    (hstep : step http s act = some t) : t.lessenAll = s.lessenAll := by
  have hcase := step_eq_some hstep
  cases act with
  | read a =>
    obtain ⟨_, rfl⟩ := hcase
    exact (s.onRead_follows http a).2.2.1
  | readError endOfStream =>
    obtain ⟨_, rfl⟩ := hcase
    rfl
  | written ok =>
    obtain ⟨returns, _, rfl⟩ := hcase
    obtain ⟨pending, _, heq⟩ := s.onWrite_eq returns ok
    rw [heq]
  | accepted ok handler =>
    obtain ⟨_, rfl⟩ := hcase
    rw [onAcceptWs]
    split
    · rfl
    · split
      · rfl
      · exact callUser_lessenAll http _ _ fun _ => rfl
  | message text payload run =>
    obtain ⟨_, rfl⟩ := hcase
    rw [onReadWs]
    split
    · split
      · exact callUser_lessenAll http _ _ fun _ => rfl
      · rfl
    · rfl
  | wsError run =>
    obtain ⟨_, rfl⟩ := hcase
    rw [onReadWsError]
    split
    · exact callUser_lessenAll http _ _ fun _ => rfl
    · rfl
  | user op =>
    obtain ⟨_, rfl⟩ := hcase
    exact s.userOps_lessenAll [op]

end Coro.Session

/-- The flag of a connection that is still there, by the calls before it was accepted. -/
theorem ServerState.connection_flag {L σ : Type} (b : Sessions L σ F A) (flagOf : σ → Bool)
    (hstep : ∀ c act c', b.step c act = some c' → flagOf c' = flagOf c) {i : Nat}
    {pre post : List (ServerAction F A)} (hpost : .accept i ∉ post) {t : ServerState L σ} {c : σ}
    (hrun : (step b).run init (pre ++ .accept i :: post) = some t)
    (hc : t.connections i = some c) :
    ∃ flag, (flags pre).2 = some flag ∧
      flagOf c = flagOf (b.accept (flags pre).1 (b.listen flag)) := by
  rw [Machine.run_append, Option.bind_eq_some_iff] at hrun
  obtain ⟨s, hs, hrun⟩ := hrun
  obtain ⟨u, hu, hrun⟩ := Machine.run_cons_eq_some.mp hrun
  obtain ⟨hflag, hlistener⟩ := run_flags b hs
  simp only [step] at hu
  split at hu
  · next l hl hnone =>
    obtain ⟨flag, hat, rfl⟩ := hlistener l hl
    obtain rfl := Option.some.inj hu
    refine ⟨flag, hat, ?_⟩
    refine run_connection b (P := fun c => flagOf c = _) (fun c act c' h hc' => ?_) hpost
      (fun c hc => ?_) hrun c hc
    · exact (hstep c act c' hc').trans h
    · dsimp only at hc
      rw [Function.update_self] at hc
      rw [← Option.some.inj hc, hflag]
  · cases hu

/-- In the asynchronous server every request is routed by the last call of `lessenAll` before its
connection was accepted. In the coroutine server this is so exactly if that call set the flag that
was set when the server was run last, or the request goes to the same handler by either flag. -/
theorem routed_iff (http : Http ρ) (pre before : List (ServerAction F A)) (i : Nat)
    (hbefore : .accept i ∉ before) (a : Arrival F A) (hm : a.req.method.dispatched)
    (hremote : a.remote ≠ none) :
    (∀ s t h h', (ServerState.step (Async.sessions http)).run .init
        (pre ++ .accept i :: before) = some s →
      ServerState.step (Async.sessions http) s (.conn i (.read a)) = some t →
      s.connections i = some h → t.connections i = some h' →
      Routed http a (destination (flags pre).1 h.func a) h.log h'.log h'.accepting) ∧
    (∀ s t c c', (ServerState.step (Coro.sessions http)).run .init
        (pre ++ .accept i :: before) = some s →
      ServerState.step (Coro.sessions http) s (.conn i (.read a)) = some t →
      s.connections i = some c → t.connections i = some c' →
      (Routed http a (destination (flags pre).1 none a) c.log c'.log c'.accepting ↔
        (flags pre).2 = some (flags pre).1 ∨
          destination true none a = destination false none a)) := by
  constructor
  · intro s t h h' hrun hstep hh hh'
    obtain ⟨flag, _, hflag⟩ := ServerState.connection_flag (Async.sessions http)
      Async.HttpServer.lessenAll
      (fun c act c' h => Async.HttpServer.step_lessenAll http h) hbefore hrun hh
    have hflag : h.lessenAll = (flags pre).1 := hflag
    rw [← hflag]
    obtain ⟨-, rfl⟩ := Async.HttpServer.step_eq_some
      (ServerState.step_conn (Async.sessions http) hstep hh hh')
    exact h.onRead_routed http hm hremote
  · intro s t c c' hrun hstep hc hc'
    obtain ⟨flag, hat, hflag⟩ := ServerState.connection_flag (Coro.sessions http)
      Coro.Session.lessenAll
      (fun c act c' h => Coro.Session.step_lessenAll http h) hbefore hrun hc
    obtain rfl : c.lessenAll = flag := hflag
    obtain ⟨-, rfl⟩ := Coro.Session.step_eq_some
      (ServerState.step_conn (Coro.sessions http) hstep hc hc')
    have hown := c.onRead_routed http hm hremote
    rw [hat, Option.some_inj, eq_comm (a := c.lessenAll), ← destination_eq_iff]
    constructor
    · exact fun hrouted => hrouted.unique hown
    · exact fun heq => heq ▸ hown

/-- A request for `/a` where a handler is registered for `head`. -/
def getWithHead : Arrival Nat Unit :=
  { getWith "/a".toList [] with H := StdMap.emplace (getWith "/a".toList []).H "head".toList 7 }

/-- The flag is set before the server is run, and is cleared after the accept: both builds call the
handler of `head` for `/a`. -/
theorem routed_iff_set_before_run :
    (∃ s t h h', (ServerState.step (Async.sessions Message.http)).run .init
        ([.lessenAll true, .run true] ++ .accept 0 :: [.lessenAll false]) = some s ∧
      ServerState.step (Async.sessions Message.http) s (.conn 0 (.read getWithHead)) = some t ∧
      s.connections 0 = some h ∧ t.connections 0 = some h' ∧
      Routed Message.http getWithHead (some 7) h.log h'.log h'.accepting) ∧
    ∃ s t c c', (ServerState.step (Coro.sessions Message.http)).run .init
        ([.lessenAll true, .run true] ++ .accept 0 :: [.lessenAll false]) = some s ∧
      ServerState.step (Coro.sessions Message.http) s (.conn 0 (.read getWithHead)) = some t ∧
      s.connections 0 = some c ∧ t.connections 0 = some c' ∧
      Routed Message.http getWithHead (some 7) c.log c'.log c'.accepting := by
  obtain ⟨hasync, hcoro⟩ := routed_iff Message.http [.lessenAll true, .run true]
    [.lessenAll false] 0 (by simp) getWithHead rfl (by decide)
  exact ⟨⟨_, _, _, _, rfl, rfl, rfl, rfl, hasync _ _ _ _ rfl rfl rfl rfl⟩,
    _, _, _, _, rfl, rfl, rfl, rfl, (hcoro _ _ _ _ rfl rfl rfl rfl).mpr (.inl rfl)⟩

/-- The flag is set after the coroutine server was run: a request on a connection that is accepted
then still goes to the handler of its own location. -/
theorem set_after_run_ignored :
    ∃ s t c c', (ServerState.step (Coro.sessions Message.http)).run .init
        ([.run true, .lessenAll true] ++ [.accept 0]) = some s ∧
      ServerState.step (Coro.sessions Message.http) s (.conn 0 (.read getWithHead)) = some t ∧
      s.connections 0 = some c ∧ t.connections 0 = some c' ∧
      ¬ Routed Message.http getWithHead (destination true none getWithHead) c.log c'.log
        c'.accepting ∧
      Routed Message.http getWithHead (some 0) c.log c'.log c'.accepting := by
  have hown : Routed Message.http getWithHead (some 0) []
      ((Coro.Session.init false).onRead Message.http getWithHead).log
      ((Coro.Session.init false).onRead Message.http getWithHead).accepting := ⟨_, _, rfl⟩
  exact ⟨_, _, _, _, rfl, rfl, rfl, rfl, fun h => absurd (h.unique hown) (by decide), hown⟩

end FHT.Server
