import FHT.Server.Release

/-!
# Exceptions that leave a completion handler

The worker threads of the asynchronous server call `m_ioc->run()` or `poll()` without a `catch`.
Of the calls that may throw, only that of a plain handler stands in the `try` block of
`on_read`. The others are `remote_endpoint()`, and the calls of the WebSocket handler, the
subscriber and the deleter. A `catch` clause throws itself where it makes a string of a
`const char*` that is null.

## Main results

- `noneEscapes_iff` — the runs in which no exception leaves a completion handler
-/

namespace FHT.Server

variable {ρ F A : Type}

/-- The exception that leaves the handling of a request. -/
def Handling.escaped (http : Http ρ) (req : Request) : Handling ρ F A → Option Thrown
  | .answer _ | .upgrade _ => none
  | .call _ _ reply =>
    match replyAnswer http req reply with
    | .ok _ => none
    | .error e => some e
  | .throw e => some e

/-- The peer of a request that is routed is still there, and the handler of a plain request throws
no null pointer. -/
def ReadContained (lessenAll : Bool) (left : Option F) (a : Arrival F A) : Prop :=
  (a.req.method.dispatched → a.remote.isSome) ∧ ¬ ThrowsNull lessenAll left a

theorem escaped_call_eq_none_iff (http : Http ρ) (req : Request) (f : F) (d : DataRequest A)
    (reply : Reply A) : (Handling.call f d reply : Handling ρ F A).escaped http req = none ↔
      reply.result ≠ .error .nullCString := by
  rw [Handling.escaped]
  cases hanswer : replyAnswer http req reply with
  | ok res =>
    refine iff_of_true rfl fun hnull => ?_
    rw [(replyAnswer_eq_error_iff http req reply _).mpr ⟨hnull, rfl⟩] at hanswer
    cases hanswer
  | error e =>
    exact iff_of_false nofun fun h => h ((replyAnswer_eq_error_iff http req reply e).mp hanswer).1

/-- Of the handling only `remote_endpoint()` and the `catch` clause for a null pointer throw past
the `try` block. -/
theorem escaped_handling_eq_none_iff (http : Http ρ) (lessenAll : Bool) (d : DataRequest A)
    (func : Option F) (a : Arrival F A) :
    (handling http lessenAll d func a).escaped http a.req = none ↔
      ReadContained lessenAll func a := by
  rw [ReadContained]
  cases hm : a.req.method.dispatched with
  | false =>
    have hnull : ¬ ThrowsNull lessenAll func a :=
      fun hnull => Bool.false_ne_true (hm.symm.trans hnull.1.1)
    rw [handling, hm, if_neg Bool.false_ne_true]
    by_cases hhead : a.req.method = .head
    · simp [hhead, Handling.escaped, hnull]
    · simp [hhead, Handling.escaped, hnull]
  | true =>
    cases hremote : a.remote with
    | none => simp [handling, hm, hremote, Handling.escaped]
    | some info =>
      cases hup : a.req.isUpgrade with
      | true =>
        have hnull : ¬ ThrowsNull lessenAll func a :=
          fun hnull => Bool.false_ne_true (hnull.1.2.1.symm.trans hup)
        rcases hrouting : routing lessenAll func a with ⟨_ | f, nextLocation⟩
        · simp [handling, hm, hremote, hrouting, Handling.escaped, hnull]
        · simp [handling, hm, hremote, hrouting, hup, Handling.escaped, hnull]
      | false =>
        rcases handling_cases http lessenAll d func hup (by simp [hremote]) with
          ⟨hcalls, f, d', hd⟩ | ⟨hcalls, res, hd⟩
        · rw [hd, escaped_call_eq_none_iff]
          simp [ThrowsNull, hcalls]
        · simp [hd, Handling.escaped, ThrowsNull, hcalls]

namespace Async.HttpServer

/-- No exception has left the completion handler that ended in this state. -/
def Kept (h : HttpServer ρ F A) : Prop := ∀ e, h.pending ≠ .threw e

/-- Nothing throws outside the `try` block: reading a request is contained, and the WebSocket
handler, the subscriber and the deleter return if they are called. -/
def Contained (h : HttpServer ρ F A) : Action F A → Prop
  | .read a => ReadContained h.lessenAll h.func a
  | .accepted ok handler => ok → handler.run.thrown = none
  | .message text _ run => h.calls text → h.ws → run.thrown = none
  | .wsError run => h.wsSub.any WsSubscriber.deleter → run.thrown = none
  | .readError _ | .written _ | .user _ => True

/-- What follows user code where that returns keeps the exceptions in. -/
theorem callUser_kept_iff (h u : HttpServer ρ F A) (run : UserRun)
    {next : HttpServer ρ F A → Option (HttpServer ρ F A)}
    (hnext : ∀ v, (h.orCrash (next v)).Kept) :
    (h.orCrash (u.callUser run next)).Kept ↔ run.thrown = none := by
  obtain ⟨v, hops, _⟩ := u.userOps_safe run.ops
  rw [callUser, hops]
  cases hthrown : run.thrown with
  | some e => simp [orCrash, Kept]
  | none => simpa using hnext v

theorem doReadWs_kept (h v : HttpServer ρ F A) : (h.orCrash v.doReadWs).Kept := by
  intro e
  unfold doReadWs useWs
  cases v.ws <;> simp [orCrash]

theorem release_kept (h v : HttpServer ρ F A) : (h.orCrash v.release).Kept := by
  intro e
  simp [orCrash, release]

theorem follows_ne_threw_iff (http : Http ρ) (req : Request) (d : Handling ρ F A) :
    (∀ e, follows http req d ≠ .threw e) ↔ d.escaped http req = none := by
  cases d with
  | call f d reply =>
    rw [follows, Handling.escaped]
    cases replyAnswer http req reply <;> simp
  | answer | upgrade | throw => simp [follows, Handling.escaped]

theorem onRead_kept_iff (http : Http ρ) (h : HttpServer ρ F A) (a : Arrival F A) :
    (h.onRead http a).Kept ↔ Contained h (.read a) := by
  rw [Kept, (h.onRead_follows http a).2.1, follows_ne_threw_iff]
  exact escaped_handling_eq_none_iff ..

theorem onAcceptWs_kept_iff {h : HttpServer ρ F A} (hfunc : h.func.isSome) (ok : Bool)
    (handler : WsHandlerRun A) :
    (h.orCrash (h.onAcceptWs ok handler)).Kept ↔ Contained h (.accepted ok handler) := by
  obtain ⟨f, hf⟩ := Option.isSome_iff_exists.mp hfunc
  cases ok with
  | false => simp [onAcceptWs, Contained, Kept, orCrash]
  | true =>
    obtain ⟨u, d, heq, _⟩ := onAcceptWs_calls hf handler
    rw [heq, callUser_kept_iff h u handler.run (doReadWs_kept h)]
    simp [Contained]

theorem onReadWs_kept_iff (h : HttpServer ρ F A) (text : Bool) (payload : Str) (run : UserRun) :
    (h.orCrash (h.onReadWs text payload run)).Kept ↔
      Contained h (.message text payload run) := by
  cases hcalls : h.calls text with
  | false =>
    rw [onReadWs_of_not_calls hcalls]
    exact iff_of_true (doReadWs_kept h _) (by simp [Contained, hcalls])
  | true =>
    cases hws : h.ws with
    | false =>
      rw [onReadWs_of_released hws]
      simp [orCrash, Kept, Contained, hws]
    | true =>
      obtain ⟨u, heq, _⟩ := onReadWs_calls hcalls hws payload run
      rw [heq, callUser_kept_iff h u run (doReadWs_kept h)]
      simp [Contained, hcalls, hws]

theorem onReadWsError_kept_iff (h : HttpServer ρ F A) (run : UserRun) :
    (h.orCrash (h.onReadWsError run)).Kept ↔ Contained h (.wsError run) := by
  rw [onReadWsError]
  cases hdel : h.wsSub.any WsSubscriber.deleter with
  | false => exact iff_of_true (release_kept h h) (by simp [Contained, hdel])
  | true =>
    rw [if_pos rfl, callUser_kept_iff h _ run (release_kept h)]
    simp [Contained, hdel]

/-- One step lets no exception out exactly if it is contained. -/
theorem step_kept_iff (http : Http ρ) {h t : HttpServer ρ F A} {act : Action F A}
    (hready : h.AcceptReady) (hstep : step http h act = some t) :
    t.Kept ↔ Contained h act := by
  have hcase := step_eq_some hstep
  cases act with
  | read a =>
    obtain ⟨_, rfl⟩ := hcase
    exact onRead_kept_iff http h a
  | readError endOfStream =>
    obtain ⟨_, rfl⟩ := hcase
    cases endOfStream <;> simp [onReadError, Kept, Contained]
  | written ok =>
    obtain ⟨close, _, rfl⟩ := hcase
    cases ok <;> cases close <;> simp [onWrite, Kept, Contained]
  | accepted ok handler =>
    obtain ⟨hp, rfl⟩ := hcase
    exact onAcceptWs_kept_iff (hready hp).2 ok handler
  | message text payload run =>
    obtain ⟨_, rfl⟩ := hcase
    exact onReadWs_kept_iff h text payload run
  | wsError run =>
    obtain ⟨_, rfl⟩ := hcase
    exact onReadWsError_kept_iff h run
  | user op =>
    obtain ⟨hp, rfl⟩ := hcase
    obtain ⟨h', heq, hpending, _⟩ := h.userOp_safe op
    rw [heq]
    simp [orCrash, Kept, Contained, hpending, hp]

/-- In a run from a new connection no exception leaves a completion handler. -/
def NoneEscapes (http : Http ρ) (lessenAll : Bool) (acts : List (Action F A)) : Prop :=
  (step http).Along (fun _ _ t => t.Kept) (init lessenAll) acts

/-- The runs in which no exception leaves a completion handler are those in which nothing
throws outside the `try` block of `on_read`. The handlers of plain requests may throw what they
want but a null pointer. -/
theorem noneEscapes_iff (http : Http ρ) (lessenAll : Bool) (acts : List (Action F A)) :
    NoneEscapes http lessenAll acts ↔
      (step http).Along (fun h act _ => Contained h act) (init lessenAll) acts := by
  have hinit : (init lessenAll : HttpServer ρ F A).AcceptReady := by simp [AcceptReady, init]
  refine Machine.along_congr_of_invariant (I := AcceptReady) ?_ ?_ hinit
  · exact fun h act t hready hstep => (step_pending_iff http hready hstep).2
  · exact fun h act t hready hstep => step_kept_iff http hready hstep

/-- A subscriber that throws a string: the exception leaves `on_read_ws`. -/
theorem subscriber_escapes : ¬ NoneEscapes Message.http false
    [.read upgradeA, .accepted true ⟨.empty, ⟨[.setSubscriber true], none⟩⟩,
      .message true "hi".toList ⟨[], some (.string "boom".toList)⟩] := by
  intro h
  have hlast := Machine.along_iff_forall.mp h
    [.read upgradeA, .accepted true ⟨.empty, ⟨[.setSubscriber true], none⟩⟩]
    (.message true "hi".toList ⟨[], some (.string "boom".toList)⟩) [] rfl _ _ rfl rfl
  exact hlast _ rfl

end Async.HttpServer

end FHT.Server
