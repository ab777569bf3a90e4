import FHT.Server.Deleter
import FHT.Server.Exceptions
import FHT.Server.LessenAll

/-!
# The worker threads of a server

The workers of a server call `m_ioc->run()` or `poll()` without a `catch`, for all connections. An
exception that leaves a completion handler or a session ends the process, and so does the use of a
stream that was reset.

## Main results

- `Coro.Session.step_kept_iff` — a session lets out what `remote_endpoint()` and the `catch` clause
  for a null pointer throw, and nothing else
- `workers_survive_iff` — the runs of a server, with any number of connections, in which the
  process goes on
-/

namespace FHT.Server

variable {ρ F A : Type}

namespace Coro.Session

/-- No exception has left the session. -/
def Kept (s : Session ρ F A) : Prop := ∀ e, s.pending ≠ .threw e

/-- Nothing throws past the `catch` clauses: reading a request is contained, and user code that is
called throws no null pointer. -/
def Contained (s : Session ρ F A) : Action F A → Prop
  | .read a => ReadContained s.lessenAll none a
  | .accepted ok handler => ok → handler.run.thrown ≠ some .nullCString
  | .message text _ run =>
    s.wsSub.any WsSubscriber.subscriber → text → run.thrown ≠ some .nullCString
  | .wsError run => s.wsSub.any WsSubscriber.deleter → run.thrown ≠ some .nullCString
  | .readError _ | .written _ | .user _ => True

theorem answer_kept_iff (http : Http ρ) (s : Session ρ F A) (returns : Bool)
    (answered : Except Thrown ρ) :
    (s.answer http returns answered).Kept ↔ ∀ e, answered ≠ .error e := by
  cases answered with
  | ok res => simp [answer, lambda, Kept]
  | error e => simp [answer, Kept]

/-- What user code throws is caught, and answered unless it is a null pointer. -/
theorem callUser_kept_iff (http : Http ρ) (s : Session ρ F A) (run : UserRun)
    {next : Session ρ F A → Session ρ F A}
    (hnext : ∀ u : Session ρ F A, u.pending = s.pending → (next u).Kept) :
    (s.callUser http run next).Kept ↔ run.thrown ≠ some .nullCString := by
  rw [callUser]
  cases hthrown : run.thrown with
  | some e =>
    simp only [answer_kept_iff, ne_eq, Http.thrownAnswer_eq_error_iff, Option.some.injEq]
    exact ⟨fun h he => h _ ⟨he, rfl⟩, fun h _ he => h he.1⟩
  | none =>
    exact iff_of_true (hnext _ (s.userOps_log run.ops).1) (Option.some_ne_none _).symm

theorem follows_ne_threw_iff (http : Http ρ) (req : Request) (d : Handling ρ F A) :
    (∀ e, follows http req d ≠ .threw e) ↔ d.escaped http req = none := by
  cases d with
  | call f d reply =>
    rw [follows, Handling.escaped]
    cases replyAnswer http req reply <;> simp
  | answer | upgrade | throw => simp [follows, Handling.escaped]

theorem onRead_kept_iff (http : Http ρ) (s : Session ρ F A) (a : Arrival F A) :
    (s.onRead http a).Kept ↔ Contained s (.read a) := by
  rw [Kept, (s.onRead_follows http a).2.1, follows_ne_threw_iff]
  exact escaped_handling_eq_none_iff ..

theorem onAcceptWs_kept_iff (http : Http ρ) {s : Session ρ F A} (hfunc : s.func.isSome) (ok : Bool)
    (handler : WsHandlerRun A) :
    (s.onAcceptWs http ok handler).Kept ↔ Contained s (.accepted ok handler) := by
  obtain ⟨f, hf⟩ := Option.isSome_iff_exists.mp hfunc
  cases ok with
  | false =>
    have hanswer := answer_kept_iff http s true
      (http.thrownAnswer s.req (.exception "accept".toList))
    exact iff_of_true (hanswer.mpr nofun) nofun
  | true =>
    rw [onAcceptWs, if_neg (by simp), hf]
    simp only [Contained, forall_const]
    exact callUser_kept_iff http _ _ fun u _ e => by simp

theorem onReadWs_kept_iff (http : Http ρ) {s : Session ρ F A} (hs : s.Kept) (text : Bool)
    (payload : Str) (run : UserRun) :
    (s.onReadWs http text payload run).Kept ↔ Contained s (.message text payload run) := by
  simp only [onReadWs, Contained]
  cases s.wsSub.any WsSubscriber.subscriber with
  | false => exact iff_of_true hs (by simp)
  | true =>
    cases text with
    | false => exact iff_of_true hs (by simp)
    | true =>
      simp only [if_true, forall_const]
      refine callUser_kept_iff http _ _ fun u hu e => ?_
      rw [id, hu]
      exact hs e

theorem onReadWsError_kept_iff (http : Http ρ) (s : Session ρ F A) (run : UserRun) :
    (s.onReadWsError http run).Kept ↔ Contained s (.wsError run) := by
  simp only [onReadWsError, Contained]
  cases s.wsSub.any WsSubscriber.deleter with
  | false => simp [release, Kept]
  | true =>
    simp only [if_true, forall_const]
    exact callUser_kept_iff http _ _ fun u _ e => by simp [release]

/-- One step lets an exception out exactly if it is not contained. -/
theorem step_kept_iff (http : Http ρ) {s t : Session ρ F A} {act : Action F A}
    (hready : s.pending = .accept → s.func.isSome) (hstep : step http s act = some t) :
    t.Kept ↔ Contained s act := by
  have hcase := step_eq_some hstep
  cases act with
  | read a =>
    obtain ⟨-, rfl⟩ := hcase
    exact s.onRead_kept_iff http a
  | readError endOfStream =>
    obtain ⟨-, rfl⟩ := hcase
    simp [Kept, Contained]
  | written ok =>
    obtain ⟨returns, -, rfl⟩ := hcase
    obtain ⟨pending, hpending, heq⟩ := s.onWrite_eq returns ok
    rw [heq]
    rcases hpending with rfl | rfl
    · simp [Kept, Contained]
    · simp [Kept, Contained]
  | accepted ok handler =>
    obtain ⟨hp, rfl⟩ := hcase
    exact onAcceptWs_kept_iff http (hready hp) ok handler
  | message text payload run =>
    obtain ⟨hp, rfl⟩ := hcase
    exact onReadWs_kept_iff http (fun e => by simp [hp]) text payload run
  | wsError run =>
    obtain ⟨-, rfl⟩ := hcase
    exact s.onReadWsError_kept_iff http run
  | user op =>
    obtain ⟨hp, rfl⟩ := hcase
    refine iff_of_true (fun e => ?_) trivial
    rw [(s.userOp_log op).1, hp]
    simp

end Coro.Session

namespace ServerState

variable {L σ : Type}

/-- After a step of a connection it is `alive`. -/
def Survives (alive : σ → Prop) (a : ServerAction F A) (t : ServerState L σ) : Prop :=
  ∀ i act c, a = .conn i act → t.connections i = some c → alive c

/-- A step of a connection is `safe`. -/
def Safe (safe : σ → Action F A → Prop) (s : ServerState L σ) (a : ServerAction F A) : Prop :=
  ∀ i act c, a = .conn i act → s.connections i = some c → safe c act

variable (b : Sessions L σ F A) {I alive : σ → Prop} {safe : σ → Action F A → Prop}

/-- What holds of a connection when it is accepted, and is kept by its steps, holds of all. -/
theorem step_connections (hinit : ∀ flag l, I (b.accept flag l))
    (hI : ∀ c act c', I c → b.step c act = some c' → I c') {s t : ServerState L σ}
    {a : ServerAction F A} (hs : ∀ i c, s.connections i = some c → I c)
    (hstep : step b s a = some t) : ∀ i c, t.connections i = some c → I c := by
  intro i c hc
  by_cases ha : a = .accept i
  · subst ha
    simp only [step] at hstep
    split at hstep
    · obtain rfl := Option.some.inj hstep
      dsimp only at hc
      rw [Function.update_self] at hc
      obtain rfl := Option.some.inj hc
      exact hinit _ _
    · cases hstep
  -- the connection is the one it was, up to a step of its own
  · have hacts : ServerAction.accept i ∉ [a] := by simpa using Ne.symm ha
    exact run_connection b hI hacts (hs i) (Machine.run_cons_eq_some.mpr ⟨t, hstep, rfl⟩) c hc

/-- Each step of a connection leaves it alive exactly if it is safe, and so for the server. -/
theorem survives_iff_safe (hinit : ∀ flag l, I (b.accept flag l))
    (hI : ∀ c act c', I c → b.step c act = some c' → I c')
    (halive : ∀ c act c', I c → b.step c act = some c' → (alive c' ↔ safe c act))
    (acts : List (ServerAction F A)) :
    (step b).Along (fun _ a t => Survives alive a t) init acts ↔
      (step b).Along (fun s a _ => Safe safe s a) init acts := by
  refine Machine.along_congr_of_invariant (I := fun s => ∀ i c, s.connections i = some c → I c)
    (fun s a t hs hstep => step_connections b hinit hI hs hstep) ?_ (fun i c hc => by cases hc)
  intro s a t hs hstep
  cases a with
  | run | lessenAll | accept => simp [Survives, Safe]
  | conn i act =>
    simp only [step] at hstep
    split at hstep
    · next c hc =>
      obtain ⟨c', hc', rfl⟩ := Option.map_eq_some_iff.mp hstep
      have hcase := halive c act c' (hs i c hc) hc'
      have hself : Function.update s.connections i (some c') i = some c' := Function.update_self ..
      constructor
      · rintro h _ _ d ⟨⟩ hd
        obtain rfl := Option.some.inj (hc.symm.trans hd)
        exact hcase.mp (h i act c' rfl hself)
      · rintro h _ _ d ⟨⟩ hd
        obtain rfl := Option.some.inj (hself.symm.trans hd)
        exact hcase.mpr (h i act c rfl hc)
    · cases hstep

end ServerState

/-- The completion handler of the connection has returned, and used no null stream. -/
def Async.HttpServer.Alive (h : Async.HttpServer ρ F A) : Prop :=
  h.pending ≠ .nullDeref ∧ h.Kept

/-- With any number of connections, the process of an asynchronous server goes on exactly if each
connection holds its stream when it is used, and none of its handler for a WebSocket, subscriber
and deleter throws. That of a coroutine server goes on whatever they throw but a null pointer. In
both builds a request that is routed after its peer has gone ends it, and so does a plain handler
that throws a null pointer. -/
theorem workers_survive_iff (http : Http ρ) (acts : List (ServerAction F A)) :
    ((ServerState.step (Async.sessions http)).Along
        (fun _ a t => ServerState.Survives Async.HttpServer.Alive a t) .init acts ↔
      (ServerState.step (Async.sessions http)).Along
        (fun s a _ => ServerState.Safe (fun h act => h.StreamHeld act ∧ h.Contained act) s a)
        .init acts) ∧
    ((ServerState.step (Coro.sessions http)).Along
        (fun _ a t => ServerState.Survives Coro.Session.Kept a t) .init acts ↔
      (ServerState.step (Coro.sessions http)).Along
        (fun s a _ => ServerState.Safe Coro.Session.Contained s a) .init acts) := by
  constructor
  · refine ServerState.survives_iff_safe _ (I := Async.HttpServer.AcceptReady) ?_ ?_ ?_ acts
    · intro flag _
      simp [Async.sessions, Async.HttpServer.AcceptReady, Async.HttpServer.init]
    · exact fun h act t hready hstep =>
        (Async.HttpServer.step_pending_iff http hready hstep).2
    · exact fun h act t hready hstep => and_congr
        (Async.HttpServer.step_pending_iff http hready hstep).1
        (Async.HttpServer.step_kept_iff http hready hstep)
  · refine ServerState.survives_iff_safe _ (I := fun s : Coro.Session ρ F A =>
      (s.pending = .accept → s.func.isSome) ∧ (.deleter ∈ s.log → s.Over)) ?_ ?_ ?_ acts
    · intro flag l
      simp [Coro.sessions, Coro.Session.init]
    · exact fun s act t hI hstep => Coro.Session.step_deleter http hI.1 hI.2 hstep
    · exact fun s act t hI hstep => Coro.Session.step_kept_iff http hI.1 hstep

end FHT.Server
