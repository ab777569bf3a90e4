import FHT.Server.Release

/-!
# The call of the deleter

Both servers call the deleter in one place, where a read of the WebSocket fails. A close by the
peer, a read error and a `stop` between two reads lead there. An exception of the handler or of
the subscriber does not, and neither does the null stream that a `stop` leaves to them in the
asynchronous server.

## Main results

- `deletedOnce_iff` — the ends of a session in which the deleter has been called exactly once,
  after the last call of the subscriber
-/

namespace FHT.Server

variable {ρ F A : Type}

/-- The deleter was called exactly once, and the subscriber not after it. -/
def DeletedOnce (log : List (Event ρ F A)) : Prop :=
  ∃ front back, log = front ++ .deleter :: back ∧
    .deleter ∉ front ∧ .deleter ∉ back ∧ ∀ str, .subscriber str ∉ back

theorem not_deletedOnce {log : List (Event ρ F A)} (h : .deleter ∉ log) : ¬ DeletedOnce log := by
  rintro ⟨front, back, rfl, -⟩
  simp at h

/-- What user code makes a server do: it publishes. -/
def published (strs : List Str) : List (Event ρ F A) := strs.map .published

theorem deleter_notMem_published (strs : List Str) :
    (.deleter : Event ρ F A) ∉ published strs := by
  simp [published]

theorem deletedOnce_published {log : List (Event ρ F A)} (h : .deleter ∉ log) (strs : List Str) :
    DeletedOnce (log ++ .deleter :: published strs) :=
  ⟨log, published strs, rfl, h, deleter_notMem_published strs, by simp [published]⟩

/-- An answer after the call changes nothing. -/
theorem DeletedOnce.response {log : List (Event ρ F A)} (h : DeletedOnce log) (res : ρ) :
    DeletedOnce (log ++ [.response res]) := by
  obtain ⟨front, back, rfl, hfront, hback, hsub⟩ := h
  refine ⟨front, back ++ [.response res], by simp, hfront, ?_, ?_⟩
  · simpa using hback
  · simpa using hsub

theorem deleter_notMem_events (http : Http ρ) (req : Request) (d : Handling ρ F A) :
    .deleter ∉ d.events http req := by
  cases d <;> simp [Handling.events]

namespace Async.HttpServer

theorem userOp_log {h h' : HttpServer ρ F A} {op : UserOp} (heq : h.userOp op = some h') :
    ∃ strs, h'.log = h.log ++ published strs := by
  cases op with
  | stop closes =>
    refine ⟨[], ?_⟩
    cases hws : h.ws <;> cases closes <;>
      · simp only [userOp, close, useWs, hws, if_true, Bool.false_eq_true, if_false,
          Option.bind_eq_bind, Option.bind_some, Option.some.injEq] at heq
        subst heq
        exact (List.append_nil _).symm
  | getPublisher str =>
    cases hws : h.ws with
    | false =>
      obtain rfl : h = h' := by simpa [userOp, publisher, hws] using heq
      exact ⟨[], (List.append_nil _).symm⟩
    | true =>
      obtain rfl : h.record (.published str) = h' := by
        simpa [userOp, publisher, useWs, hws] using heq
      exact ⟨[str], rfl⟩
  | setSubscriber functor | setDeleter functor =>
    obtain rfl := Option.some.inj heq
    exact ⟨[], (List.append_nil _).symm⟩

theorem userOps_log {h h' : HttpServer ρ F A} {ops : List UserOp} (heq : h.userOps ops = some h') :
    ∃ strs, h'.log = h.log ++ published strs := by
  induction ops generalizing h with
  | nil =>
    obtain rfl : h = h' := by simpa [userOps] using heq
    exact ⟨[], (List.append_nil _).symm⟩
  | cons op ops ih =>
    obtain ⟨u, hu, hops⟩ : ∃ u, h.userOp op = some u ∧ u.userOps ops = some h' := by
      simpa [userOps, List.foldlM_cons, Option.bind_eq_some_iff] using heq
    obtain ⟨strs, hlog⟩ := userOp_log hu
    obtain ⟨strs', hlog'⟩ := ih hops
    exact ⟨strs ++ strs', by rw [hlog', hlog, List.append_assoc, published, published, published,
      List.map_append]⟩

/-- A session between two reads, with its deleter still to be called. -/
def Open (h : HttpServer ρ F A) : Prop := h.pending = .readWs ∧ .deleter ∉ h.log

/-- A session whose completion handlers are all done. -/
def Over (h : HttpServer ρ F A) : Prop :=
  h.pending = .failed ∨ h.pending = .nullDeref ∨ ∃ e, h.pending = .threw e

theorem not_step_of_over {http : Http ρ} {h t : HttpServer ρ F A} {act : Action F A}
    (hover : h.Over) : step http h act ≠ some t := by
  rcases hover with hp | hp | ⟨e, hp⟩
  all_goals simp [step, hp]

/-- The session goes the way of the deleter: the handler and the subscriber, if it is called,
return and leave the stream set, the stream is set when a message arrives, and the deleter is
set when a read fails. -/
def Proper (h : HttpServer ρ F A) : Action F A → Prop
  | .accepted ok handler => ok → handler.run.thrown = none ∧ .stop true ∉ handler.run.ops
  | .message text _ run =>
    h.ws = true ∧ (h.calls text → run.thrown = none ∧ .stop true ∉ run.ops)
  | .wsError _ => h.wsSub.any WsSubscriber.deleter
  | .read _ | .readError _ | .written _ | .user _ => True

/-- User code followed by a read leaves the session open exactly if it returns and the stream
is still set. -/
theorem callUser_doReadWs_open {h u : HttpServer ρ F A} (hlog : .deleter ∉ h.log)
    (hu : .deleter ∉ u.log) (run : UserRun) :
    let t := h.orCrash (u.callUser run doReadWs)
    .deleter ∉ t.log ∧
      (t.pending = .readWs ∧ (run.thrown = none ∧ u.ws = true ∧ .stop true ∉ run.ops) ∨
        t.Over ∧ ¬ (run.thrown = none ∧ u.ws = true ∧ .stop true ∉ run.ops)) := by
  obtain ⟨v, hops, _, hws⟩ := u.userOps_safe run.ops
  obtain ⟨strs, hv⟩ := userOps_log hops
  have hvlog : .deleter ∉ v.log := by
    rw [hv, List.mem_append, not_or]
    exact ⟨hu, deleter_notMem_published strs⟩
  rw [callUser, hops]
  cases hthrown : run.thrown with
  | some e => exact ⟨hvlog, .inr ⟨.inr (.inr ⟨e, rfl⟩), by simp⟩⟩
  | none =>
    simp only [Option.bind_eq_bind, Option.bind_some, doReadWs, useWs, true_and, ← hws]
    cases v.ws with
    | true => exact ⟨hvlog, .inl ⟨rfl, rfl⟩⟩
    | false => exact ⟨hlog, .inr ⟨.inr (.inl rfl), by simp⟩⟩

theorem onAcceptWs_open {h : HttpServer ρ F A} (hws : h.ws = true) (hfunc : h.func.isSome)
    (hlog : .deleter ∉ h.log) (handler : WsHandlerRun A) :
    let t := h.orCrash (h.onAcceptWs true handler)
    t.Open ∧ Proper h (.accepted true handler) ∨
      t.Over ∧ .deleter ∉ t.log ∧ ¬ Proper h (.accepted true handler) := by
  obtain ⟨f, hf⟩ := Option.isSome_iff_exists.mp hfunc
  obtain ⟨u, d, heq, hwsu, hlogu, _⟩ := onAcceptWs_calls hf handler
  have hu : .deleter ∉ u.log := by simpa [hlogu] using hlog
  rw [heq]
  obtain ⟨hdel, ⟨hp, hthrown, _, hstop⟩ | ⟨hover, hnot⟩⟩ :=
    callUser_doReadWs_open hlog hu handler.run
  · exact .inl ⟨⟨hp, hdel⟩, fun _ => ⟨hthrown, hstop⟩⟩
  · refine .inr ⟨hover, hdel, fun hproper => hnot ?_⟩
    exact ⟨(hproper rfl).1, hwsu.trans hws, (hproper rfl).2⟩

theorem onReadWs_open {h : HttpServer ρ F A} (hlog : .deleter ∉ h.log) (text : Bool)
    (payload : Str) (run : UserRun) :
    let t := h.orCrash (h.onReadWs text payload run)
    t.Open ∧ Proper h (.message text payload run) ∨
      t.Over ∧ .deleter ∉ t.log ∧ ¬ Proper h (.message text payload run) := by
  cases hws : h.ws with
  | false =>
    rw [onReadWs_of_released hws]
    exact .inr ⟨.inr (.inl rfl), hlog, by simp [Proper, hws]⟩
  | true =>
    cases hcalls : h.calls text with
    | false =>
      rw [onReadWs_of_not_calls hcalls]
      simp only [doReadWs, useWs, hws, if_true, Option.bind_eq_bind, Option.bind_some]
      exact .inl ⟨⟨rfl, hlog⟩, hws, by simp [hcalls]⟩
    | true =>
      obtain ⟨u, heq, hwsu, hlogu, _⟩ := onReadWs_calls hcalls hws payload run
      have hu : .deleter ∉ u.log := by simpa [hlogu] using hlog
      rw [heq]
      obtain ⟨hdel, ⟨hp, hthrown, _, hstop⟩ | ⟨hover, hnot⟩⟩ :=
        callUser_doReadWs_open hlog hu run
      · exact .inl ⟨⟨hp, hdel⟩, hws, fun _ => ⟨hthrown, hstop⟩⟩
      · refine .inr ⟨hover, hdel, fun hproper => hnot ?_⟩
        exact ⟨(hproper.2 hcalls).1, hwsu.trans hws, (hproper.2 hcalls).2⟩

/-- After a failed read the session is over, and the deleter has been called if it was set. -/
theorem onReadWsError_over {h : HttpServer ρ F A} (hlog : .deleter ∉ h.log) (run : UserRun) :
    let t := h.orCrash (h.onReadWsError run)
    t.Over ∧ (DeletedOnce t.log ↔ h.wsSub.any WsSubscriber.deleter) := by
  simp only [onReadWsError]
  cases hdel : h.wsSub.any WsSubscriber.deleter with
  | false => exact ⟨.inl rfl, iff_of_false (not_deletedOnce hlog) (by simp)⟩
  | true =>
    obtain ⟨v, hops, _⟩ := (h.record .deleter).userOps_safe run.ops
    obtain ⟨strs, hv⟩ := userOps_log hops
    have honce : DeletedOnce v.log := by
      rw [hv, record, List.append_assoc]
      exact deletedOnce_published hlog strs
    rw [if_pos rfl, callUser, hops]
    cases run.thrown with
    | some e => exact ⟨.inr (.inr ⟨e, rfl⟩), iff_of_true honce rfl⟩
    | none => exact ⟨.inl rfl, iff_of_true honce rfl⟩

/-- One step of a session. -/
theorem step_open (http : Http ρ) {h t : HttpServer ρ F A} {act : Action F A} (hopen : h.Open)
    (hstep : step http h act = some t) :
    t.Open ∧ Proper h act ∨ t.Over ∧ (DeletedOnce t.log ↔ Proper h act) := by
  have hcase := step_eq_some hstep
  obtain ⟨hp, hlog⟩ := hopen
  cases act with
  | read | readError | accepted => simp [hp] at hcase
  | written => simp [hp] at hcase
  | message text payload run =>
    obtain ⟨_, rfl⟩ := hcase
    refine (onReadWs_open hlog text payload run).imp_right ?_
    rintro ⟨hover, hdel, hproper⟩
    exact ⟨hover, iff_of_false (not_deletedOnce hdel) hproper⟩
  | wsError run =>
    obtain ⟨_, rfl⟩ := hcase
    exact .inr (onReadWsError_over hlog run)
  | user op =>
    obtain ⟨_, rfl⟩ := hcase
    obtain ⟨h', heq, hpending, _⟩ := h.userOp_safe op
    obtain ⟨strs, hv⟩ := userOp_log heq
    rw [heq]
    refine .inl ⟨⟨hpending.trans hp, ?_⟩, trivial⟩
    rw [orCrash, Option.getD_some, hv, List.mem_append, not_or]
    exact ⟨hlog, deleter_notMem_published strs⟩

/-- The deleter is called last: a connection on which it has been called is over. -/
theorem step_deleter (http : Http ρ) {h t : HttpServer ρ F A} {act : Action F A}
    (hready : h.AcceptReady) (hdel : .deleter ∈ h.log → h.Over) (hstep : step http h act = some t) :
    .deleter ∈ t.log → t.Over := by
  have hlog : .deleter ∉ h.log := fun hmem => not_step_of_over (hdel hmem) hstep
  have hcase := step_eq_some hstep
  intro hmem
  cases act with
  | read a =>
    obtain ⟨_, rfl⟩ := hcase
    rw [(h.onRead_follows http a).1, List.mem_append] at hmem
    exact absurd hmem (not_or.mpr ⟨hlog, deleter_notMem_events http a.req _⟩)
  | readError endOfStream =>
    obtain ⟨_, rfl⟩ := hcase
    exact absurd hmem hlog
  | written ok =>
    obtain ⟨close, _, rfl⟩ := hcase
    cases ok <;> cases close <;> exact absurd hmem hlog
  | accepted ok handler =>
    obtain ⟨hp, rfl⟩ := hcase
    cases ok with
    | false => exact .inl rfl
    | true =>
      obtain ⟨hws, hfunc⟩ := hready hp
      rcases onAcceptWs_open hws hfunc hlog handler with ⟨hopen, _⟩ | ⟨hover, _⟩
      · exact absurd hmem hopen.2
      · exact hover
  | message text payload run =>
    obtain ⟨_, rfl⟩ := hcase
    rcases onReadWs_open hlog text payload run with ⟨hopen, _⟩ | ⟨hover, _⟩
    · exact absurd hmem hopen.2
    · exact hover
  | wsError run =>
    obtain ⟨_, rfl⟩ := hcase
    exact (onReadWsError_over hlog run).1
  | user op =>
    obtain ⟨hp, _⟩ := hcase
    rcases step_open http ⟨hp, hlog⟩ hstep with ⟨hopen, _⟩ | ⟨hover, _⟩
    · exact absurd hmem hopen.2
    · exact hover

/-- A connection that waits for a handshake has its stream and its handler, and the deleter has
not been called on it. -/
theorem run_pending_accept (http : Http ρ) {lessenAll : Bool} {acts : List (Action F A)}
    {h : HttpServer ρ F A} (hrun : (step http).run (init lessenAll) acts = some h)
    (hp : h.pending = .accept) : h.ws = true ∧ h.func.isSome ∧ .deleter ∉ h.log := by
  have hinit : (init lessenAll : HttpServer ρ F A).AcceptReady ∧
      (.deleter ∈ (init lessenAll : HttpServer ρ F A).log →
        (init lessenAll : HttpServer ρ F A).Over) := by
    simp [AcceptReady, init]
  obtain ⟨hready, hdel⟩ := Machine.run_invariant
    (I := fun h => h.AcceptReady ∧ (.deleter ∈ h.log → h.Over))
    (fun h act t hI hstep => ⟨(step_pending_iff http hI.1 hstep).2,
      step_deleter http hI.1 hI.2 hstep⟩) hinit hrun
  refine ⟨(hready hp).1, (hready hp).2, fun hmem => ?_⟩
  rcases hdel hmem with h' | h' | ⟨e, h'⟩
  all_goals simp [hp] at h'

/-- A session that has ended has called its deleter exactly once, and last, exactly if every
step of it was proper. -/
theorem deletedOnce_iff_proper (http : Http ρ) {lessenAll : Bool} {pre post : List (Action F A)}
    {handler : WsHandlerRun A} {h t : HttpServer ρ F A}
    (hpre : (step http).run (init lessenAll) pre = some h)
    (hrun : (step http).run h (.accepted true handler :: post) = some t)
    (hend : t.pending ≠ .readWs) :
    DeletedOnce t.log ↔
      (step http).Along (fun h act _ => Proper h act) h (.accepted true handler :: post) := by
  obtain ⟨u, hu, hpost⟩ := Machine.run_cons_eq_some.mp hrun
  obtain ⟨hp, rfl⟩ : h.pending = .accept ∧ u = h.orCrash (h.onAcceptWs true handler) :=
    step_eq_some hu
  obtain ⟨hws, hfunc, hlog⟩ := run_pending_accept http hpre hp
  rw [Machine.along_cons_of_step hu]
  have hover : ∀ h : HttpServer ρ F A, h.Over → ∀ act t, step http h act ≠ some t :=
    fun h hover act t => not_step_of_over hover
  rcases onAcceptWs_open hws hfunc hlog handler with ⟨hopen, hproper⟩ | ⟨hdone, hdel, hnot⟩
  · -- the reads of the session, until one of them ends it
    refine Iff.trans ?_ (and_iff_right hproper).symm
    exact Machine.along_iff_of_phases (G := fun t => DeletedOnce t.log)
      (P := fun h act _ => Proper h act)
      (fun h act t hopen hstep => step_open http hopen hstep)
      (fun h act t hdone hstep => absurd hstep (hover h hdone act t)) hopen hpost
      fun hopen => hend hopen.1
  · refine iff_of_false ?_ fun h => hnot h.1
    cases post with
    | nil =>
      obtain rfl : h.orCrash (h.onAcceptWs true handler) = t := by simpa using hpost
      exact not_deletedOnce hdel
    | cons act post =>
      obtain ⟨v, hv, _⟩ := Machine.run_cons_eq_some.mp hpost
      exact absurd hv (hover _ hdone act v)

end Async.HttpServer

namespace Coro.Session

theorem userOp_log (s : Session ρ F A) (op : UserOp) :
    (s.userOp op).pending = s.pending ∧ ∃ strs, (s.userOp op).log = s.log ++ published strs := by
  cases op with
  | stop closes =>
    refine ⟨?_, [], ?_⟩ <;>
      · rw [userOp]
        split <;> simp [published]
  | getPublisher str => exact ⟨rfl, [str], rfl⟩
  | setSubscriber functor | setDeleter functor => exact ⟨rfl, [], (List.append_nil _).symm⟩

theorem userOps_log (s : Session ρ F A) (ops : List UserOp) :
    (s.userOps ops).pending = s.pending ∧
      ∃ strs, (s.userOps ops).log = s.log ++ published strs := by
  induction ops generalizing s with
  | nil => exact ⟨rfl, [], (List.append_nil _).symm⟩
  | cons op ops ih =>
    obtain ⟨hp, strs, hlog⟩ := s.userOp_log op
    obtain ⟨hp', strs', hlog'⟩ := ih (s.userOp op)
    refine ⟨hp'.trans hp, strs ++ strs', ?_⟩
    rw [userOps, List.foldl_cons]
    exact hlog'.trans (by simp [hlog, published])

/-- A session between two reads, with its deleter still to be called. -/
def Open (s : Session ρ F A) : Prop := s.pending = .readWs ∧ .deleter ∉ s.log

/-- A session that has left the WebSocket loop: it returns, at the latest after the answer, or an
exception has left it. -/
def Over (s : Session ρ F A) : Prop :=
  s.pending = .ended ∨ s.pending = .write true ∨ ∃ e, s.pending = .threw e

theorem answer_over (http : Http ρ) (s : Session ρ F A) (answered : Except Thrown ρ) :
    (s.answer http true answered).Over := by
  cases answered with
  | ok res => exact .inr (.inl rfl)
  | error e => exact .inr (.inr ⟨e, rfl⟩)

theorem answer_log (http : Http ρ) (s : Session ρ F A) (returns : Bool)
    (answered : Except Thrown ρ) :
    (s.answer http returns answered).log = s.log ++ answered.toOption.toList.map .response := by
  cases answered with
  | ok res => rfl
  | error e => exact (List.append_nil _).symm

/-- The session goes the way of the deleter: the handler and the subscriber, if it is called,
return, and the deleter is set when a read fails. -/
def Proper (s : Session ρ F A) : Action F A → Prop
  | .accepted ok handler => ok → handler.run.thrown = none
  | .message text _ run =>
    s.wsSub.any WsSubscriber.subscriber → text → run.thrown = none
  | .wsError _ => s.wsSub.any WsSubscriber.deleter
  | .read _ | .readError _ | .written _ | .user _ => True

/-- User code that throws leaves the session to an answer, without a call of the deleter. -/
theorem callUser_open (http : Http ρ) {s : Session ρ F A} (hlog : .deleter ∉ s.log)
    (run : UserRun) {next : Session ρ F A → Session ρ F A}
    (hnext : ∀ u : Session ρ F A, u.pending = s.pending →
      (next u).pending = .readWs ∧ (next u).log = u.log) :
    let t := s.callUser http run next
    t.Open ∧ run.thrown = none ∨ t.Over ∧ .deleter ∉ t.log ∧ run.thrown ≠ none := by
  obtain ⟨hp, strs, hops⟩ := s.userOps_log run.ops
  have hdel : .deleter ∉ (s.userOps run.ops).log := by
    rw [hops, List.mem_append, not_or]
    exact ⟨hlog, deleter_notMem_published strs⟩
  rw [callUser]
  cases hthrown : run.thrown with
  | some e => exact .inr ⟨answer_over .., by simpa [answer_log] using hdel, by simp⟩
  | none =>
    obtain ⟨hread, hsame⟩ := hnext _ hp
    exact .inl ⟨⟨hread, hsame ▸ hdel⟩, rfl⟩

theorem onAcceptWs_open (http : Http ρ) {s : Session ρ F A} (hfunc : s.func.isSome)
    (hlog : .deleter ∉ s.log) (handler : WsHandlerRun A) :
    let t := s.onAcceptWs http true handler
    t.Open ∧ Proper s (.accepted true handler) ∨
      t.Over ∧ .deleter ∉ t.log ∧ ¬ Proper s (.accepted true handler) := by
  obtain ⟨f, hf⟩ := Option.isSome_iff_exists.mp hfunc
  rw [onAcceptWs, if_neg (by simp), hf]
  simp only [Proper, forall_const]
  exact callUser_open http (by simpa [record] using hlog) handler.run fun u _ => ⟨rfl, rfl⟩

theorem onReadWs_open (http : Http ρ) {s : Session ρ F A} (hopen : s.Open) (text : Bool)
    (payload : Str) (run : UserRun) :
    let t := s.onReadWs http text payload run
    t.Open ∧ Proper s (.message text payload run) ∨
      t.Over ∧ .deleter ∉ t.log ∧ ¬ Proper s (.message text payload run) := by
  simp only [onReadWs, Proper]
  cases s.wsSub.any WsSubscriber.subscriber with
  | false => exact .inl ⟨hopen, by simp⟩
  | true =>
    cases text with
    | false => exact .inl ⟨hopen, by simp⟩
    | true =>
      simp only [if_true, forall_const]
      exact callUser_open http (by simpa [record] using hopen.2) run fun u hu =>
        ⟨hu.trans hopen.1, rfl⟩

/-- After a failed read the session is over, and the deleter has been called if it was set. -/
theorem onReadWsError_over (http : Http ρ) {s : Session ρ F A} (hlog : .deleter ∉ s.log)
    (run : UserRun) :
    let t := s.onReadWsError http run
    t.Over ∧ (DeletedOnce t.log ↔ s.wsSub.any WsSubscriber.deleter) := by
  simp only [onReadWsError]
  cases hdel : s.wsSub.any WsSubscriber.deleter with
  | false => exact ⟨.inl rfl, iff_of_false (not_deletedOnce hlog) (by simp)⟩
  | true =>
    obtain ⟨_, strs, hops⟩ := (s.record .deleter).userOps_log run.ops
    have honce : DeletedOnce ((s.record .deleter).userOps run.ops).log := by
      rw [hops, record, List.append_assoc]
      exact deletedOnce_published hlog strs
    rw [if_pos rfl, callUser]
    cases run.thrown with
    | some e =>
      refine ⟨answer_over .., iff_of_true ?_ rfl⟩
      dsimp only
      cases http.thrownAnswer _ e with
      | ok res => exact honce.response res
      | error e => exact honce
    | none => exact ⟨.inl rfl, iff_of_true honce rfl⟩

/-- One step of a session. -/
theorem step_open (http : Http ρ) {s t : Session ρ F A} {act : Action F A} (hopen : s.Open)
    (hstep : step http s act = some t) :
    t.Open ∧ Proper s act ∨ t.Over ∧ (DeletedOnce t.log ↔ Proper s act) := by
  have hcase := step_eq_some hstep
  obtain ⟨hp, hlog⟩ := hopen
  cases act with
  | read | readError | accepted => simp [hp] at hcase
  | written => simp [hp] at hcase
  | message text payload run =>
    obtain ⟨_, rfl⟩ := hcase
    refine (onReadWs_open http ⟨hp, hlog⟩ text payload run).imp_right ?_
    rintro ⟨hover, hdel, hproper⟩
    exact ⟨hover, iff_of_false (not_deletedOnce hdel) hproper⟩
  | wsError run =>
    obtain ⟨_, rfl⟩ := hcase
    exact .inr (onReadWsError_over http hlog run)
  | user op =>
    obtain ⟨_, rfl⟩ := hcase
    obtain ⟨hpending, strs, hop⟩ := s.userOp_log op
    refine .inl ⟨⟨hpending.trans hp, ?_⟩, trivial⟩
    rw [hop, List.mem_append, not_or]
    exact ⟨hlog, deleter_notMem_published strs⟩

/-- Only the answer may still be written. -/
theorem step_over (http : Http ρ) {s t : Session ρ F A} {act : Action F A} (hover : s.Over)
    (hstep : step http s act = some t) :
    t.Over ∧ (DeletedOnce t.log ↔ DeletedOnce s.log) ∧ Proper s act := by
  have hcase := step_eq_some hstep
  cases act with
  | written ok =>
    obtain ⟨returns, hp, rfl⟩ := hcase
    obtain rfl : returns = true := by
      rcases hover with h | h | ⟨e, h⟩
      · cases hp.symm.trans h
      · exact Pending.write.inj (hp.symm.trans h)
      · cases hp.symm.trans h
    exact ⟨.inl rfl, Iff.rfl, trivial⟩
  | read | readError | accepted | message | wsError | user =>
    rcases hover with h | h | ⟨e, h⟩
    all_goals simp [h] at hcase

theorem onRead_func (http : Http ρ) (s : Session ρ F A) (a : Arrival F A) :
    (s.onRead http a).pending = .accept → (s.onRead http a).func.isSome := by
  rw [onRead]
  dsimp only
  split
  · simp [lambda]
  split
  · simp [lambda]
  split
  · simp
  rw [dispatch]
  dsimp only
  split
  · simp
  split
  · simp
  split
  · simp [lambda]
  split
  · simp
  · rw [callHandler_eq]
    cases replyAnswer http _ a.reply <;> simp [answer, lambda]

/-- On a connection that waits for a handshake the handler has been found, and the deleter has
been called only on one that is over. -/
theorem step_deleter (http : Http ρ) {s t : Session ρ F A} {act : Action F A}
    (hready : s.pending = .accept → s.func.isSome) (hdel : .deleter ∈ s.log → s.Over)
    (hstep : step http s act = some t) :
    (t.pending = .accept → t.func.isSome) ∧ (.deleter ∈ t.log → t.Over) := by
  have hopen : ∀ {t : Session ρ F A}, t.Open →
      (t.pending = .accept → t.func.isSome) ∧ (.deleter ∈ t.log → t.Over) :=
    fun h => ⟨fun hp => by simp [h.1] at hp, fun hmem => absurd hmem h.2⟩
  have hover : ∀ {t : Session ρ F A}, t.Over →
      (t.pending = .accept → t.func.isSome) ∧ (.deleter ∈ t.log → t.Over) :=
    fun h => ⟨fun hp => by rcases h with h | h | ⟨e, h⟩ <;> simp [hp] at h, fun _ => h⟩
  by_cases hmem : .deleter ∈ s.log
  · exact hover (step_over http (hdel hmem) hstep).1
  have hcase := step_eq_some hstep
  cases act with
  | read a =>
    obtain ⟨_, rfl⟩ := hcase
    refine ⟨onRead_func http s a, fun h => ?_⟩
    rw [(s.onRead_follows http a).1, List.mem_append] at h
    exact absurd h (not_or.mpr ⟨hmem, deleter_notMem_events http a.req _⟩)
  | readError endOfStream =>
    obtain ⟨_, rfl⟩ := hcase
    exact hover (.inl rfl)
  | written ok =>
    obtain ⟨returns, _, rfl⟩ := hcase
    obtain ⟨pending, hp, heq⟩ := s.onWrite_eq returns ok
    rw [heq]
    refine ⟨fun haccept => ?_, fun h => absurd h hmem⟩
    rcases hp with rfl | rfl
    all_goals cases haccept
  | accepted ok handler =>
    obtain ⟨hp, rfl⟩ := hcase
    cases ok with
    | false =>
      exact hover (answer_over http s (http.thrownAnswer s.req (.exception "accept".toList)))
    | true =>
      rcases onAcceptWs_open http (hready hp) hmem handler with ⟨h, _⟩ | ⟨h, _⟩
      · exact hopen h
      · exact hover h
  | message | wsError | user =>
    rcases step_open http ⟨hcase.1, hmem⟩ hstep with ⟨h, _⟩ | ⟨h, _⟩
    · exact hopen h
    · exact hover h

theorem run_pending_accept (http : Http ρ) {lessenAll : Bool} {acts : List (Action F A)}
    {s : Session ρ F A} (hrun : (step http).run (init lessenAll) acts = some s)
    (hp : s.pending = .accept) : s.func.isSome ∧ .deleter ∉ s.log := by
  have hinit : ((init lessenAll : Session ρ F A).pending = .accept →
      (init lessenAll : Session ρ F A).func.isSome) ∧
      (.deleter ∈ (init lessenAll : Session ρ F A).log →
        (init lessenAll : Session ρ F A).Over) := by
    simp [init]
  obtain ⟨hready, hdel⟩ := Machine.run_invariant
    (I := fun s => (s.pending = .accept → s.func.isSome) ∧ (.deleter ∈ s.log → s.Over))
    (fun s act t hI hstep => step_deleter http hI.1 hI.2 hstep) hinit hrun
  refine ⟨hready hp, fun hmem => ?_⟩
  rcases hdel hmem with h | h | ⟨e, h⟩
  all_goals simp [hp] at h

/-- A session that has ended has called its deleter exactly once, and last, exactly if every
step of it was proper. -/
theorem deletedOnce_iff_proper (http : Http ρ) {lessenAll : Bool} {pre post : List (Action F A)}
    {handler : WsHandlerRun A} {s t : Session ρ F A}
    (hpre : (step http).run (init lessenAll) pre = some s)
    (hrun : (step http).run s (.accepted true handler :: post) = some t)
    (hend : t.pending ≠ .readWs) :
    DeletedOnce t.log ↔
      (step http).Along (fun s act _ => Proper s act) s (.accepted true handler :: post) := by
  obtain ⟨u, hu, hpost⟩ := Machine.run_cons_eq_some.mp hrun
  obtain ⟨hp, rfl⟩ : s.pending = .accept ∧ u = s.onAcceptWs http true handler :=
    step_eq_some hu
  obtain ⟨hfunc, hlog⟩ := run_pending_accept http hpre hp
  rw [Machine.along_cons_of_step hu]
  rcases onAcceptWs_open http hfunc hlog handler with ⟨hopen, hproper⟩ | ⟨hover, hdel, hnot⟩
  · -- the reads of the session, until one of them ends it
    refine Iff.trans ?_ (and_iff_right hproper).symm
    exact Machine.along_iff_of_phases (G := fun t => DeletedOnce t.log)
      (P := fun s act _ => Proper s act)
      (fun s act t hopen hstep => step_open http hopen hstep)
      (fun s act t hover hstep => step_over http hover hstep) hopen hpost
      fun hopen => hend hopen.1
  · refine iff_of_false ?_ fun h => hnot h.1
    have hnone : ¬ DeletedOnce t.log := Machine.run_invariant
      (I := fun s => s.Over ∧ ¬ DeletedOnce s.log)
      (fun s act t hI hstep => by
        obtain ⟨hover, hsame, _⟩ := step_over http hI.1 hstep
        exact ⟨hover, fun h => hI.2 (hsame.mp h)⟩)
      ⟨hover, not_deletedOnce hdel⟩ hpost |>.2
    exact hnone

end Coro.Session

/-- Of a session that completed its handshake and has ended, the deleter has been called exactly
once, after the last call of the subscriber, exactly if the session went the way of the deleter
at every step. -/
theorem deletedOnce_iff (http : Http ρ) (lessenAll : Bool) (pre post : List (Action F A))
    (handler : WsHandlerRun A) :
    (∀ h t, (Async.HttpServer.step http).run (.init lessenAll) pre = some h →
      (Async.HttpServer.step http).run h (.accepted true handler :: post) = some t →
      t.pending ≠ .readWs →
      (DeletedOnce t.log ↔ (Async.HttpServer.step http).Along
        (fun h act _ => h.Proper act) h (.accepted true handler :: post))) ∧
    (∀ s t, (Coro.Session.step http).run (.init lessenAll) pre = some s →
      (Coro.Session.step http).run s (.accepted true handler :: post) = some t →
      t.pending ≠ .readWs →
      (DeletedOnce t.log ↔ (Coro.Session.step http).Along
        (fun s act _ => s.Proper act) s (.accepted true handler :: post))) :=
  ⟨fun _ _ hpre hrun hend => Async.HttpServer.deletedOnce_iff_proper http hpre hrun hend,
    fun _ _ hpre hrun hend => Coro.Session.deletedOnce_iff_proper http hpre hrun hend⟩

/-- A handler that sets a subscriber and a deleter. -/
def setsBoth : WsHandlerRun Unit := ⟨.empty, ⟨[.setSubscriber true, .setDeleter true], none⟩⟩

/-- A message, a `stop` between two reads, and the read that fails then. -/
theorem deletedOnce_iff_stopped :
    let post := [.message true "hi".toList ⟨[], none⟩, .user (.stop true), .wsError ⟨[], none⟩]
    (∃ h t, (Async.HttpServer.step Message.http).run (.init false) [.read upgradeA] = some h ∧
      (Async.HttpServer.step Message.http).run h (.accepted true setsBoth :: post) = some t ∧
      DeletedOnce t.log) ∧
    ∃ s t, (Coro.Session.step Message.http).run (.init false) [.read upgradeA] = some s ∧
      (Coro.Session.step Message.http).run s (.accepted true setsBoth :: post) = some t ∧
      DeletedOnce t.log := by
  obtain ⟨hasync, hcoro⟩ := deletedOnce_iff Message.http false [.read upgradeA]
    [.message true "hi".toList ⟨[], none⟩, .user (.stop true), .wsError ⟨[], none⟩] setsBoth
  refine ⟨⟨_, _, rfl, rfl, (hasync _ _ rfl rfl (by decide)).mpr ?_⟩,
    ⟨_, _, rfl, rfl, (hcoro _ _ rfl rfl (by decide)).mpr ?_⟩⟩
  · refine (Machine.along_cons_of_step rfl).mpr ⟨fun _ => ⟨rfl, by decide⟩, ?_⟩
    refine (Machine.along_cons_of_step rfl).mpr ⟨⟨rfl, fun _ => ⟨rfl, by decide⟩⟩, ?_⟩
    refine (Machine.along_cons_of_step rfl).mpr ⟨trivial, ?_⟩
    exact (Machine.along_cons_of_step rfl).mpr ⟨rfl, trivial⟩
  · refine (Machine.along_cons_of_step rfl).mpr ⟨fun _ => rfl, ?_⟩
    refine (Machine.along_cons_of_step rfl).mpr ⟨fun _ _ => rfl, ?_⟩
    refine (Machine.along_cons_of_step rfl).mpr ⟨trivial, ?_⟩
    exact (Machine.along_cons_of_step rfl).mpr ⟨rfl, trivial⟩

/-- The subscriber throws a string: both sessions end without a call of the deleter. -/
theorem thrown_skips_deleter :
    let acts := [.read upgradeA, .accepted true setsBoth,
      .message true "hi".toList ⟨[], some (.string "boom".toList)⟩]
    (∃ t, (Async.HttpServer.step Message.http).run (.init false) acts = some t ∧
      t.pending = .threw (.string "boom".toList) ∧ ¬ DeletedOnce t.log) ∧
    ∃ t, (Coro.Session.step Message.http).run (.init false) acts = some t ∧
      t.pending = .write true ∧ ¬ DeletedOnce t.log := by
  refine ⟨⟨_, rfl, rfl, not_deletedOnce ?_⟩, ⟨_, rfl, rfl, not_deletedOnce ?_⟩⟩
  · rintro (_ | ⟨_, _ | ⟨_, h⟩⟩)
    cases h
  · rintro (_ | ⟨_, _ | ⟨_, _ | ⟨_, h⟩⟩⟩)
    cases h

end FHT.Server
