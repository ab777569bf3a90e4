import FHT.Server.Deleter

/-!
# What is published on a WebSocket

User code publishes with `getPublisher`: in the handler, in the subscriber, in the deleter or
between two reads. The asynchronous server drops a string if the stream is gone, which the first
`stop` that closes it takes. In the coroutine server the closure that publishes has a stream of
its own, and hands over every string.

## Main definitions

- `userCalls` — what user code does with the `wsSubscriber` in a step
- `sent` — the strings that are asked for before the stream is closed

## Main results

- `published_exact` — what a connection of either build hands over to its stream
-/

namespace FHT.Server

variable {ρ F A : Type}

/-- The strings that were handed over to the stream. -/
def publishedStrings (log : List (Event ρ F A)) : List Str :=
  log.filterMap fun
    | .published str => some str
    | _ => none

theorem publishedStrings_append (log log' : List (Event ρ F A)) :
    publishedStrings (log ++ log') = publishedStrings log ++ publishedStrings log' :=
  List.filterMap_append ..

/-- What user code does in a step, if it is called there. -/
def userCalls (wsSub : Option WsSubscriber) : Action F A → List UserOp
  | .accepted ok handler => if ok then handler.run.ops else []
  | .message text _ run => if wsSub.any WsSubscriber.subscriber && text then run.ops else []
  | .wsError run => if wsSub.any WsSubscriber.deleter then run.ops else []
  | .user op => [op]
  | .read _ | .readError _ | .written _ => []

/-- The strings that are to be published. -/
def asked (ops : List UserOp) : List Str :=
  ops.filterMap fun
    | .getPublisher str => some str
    | _ => none

theorem asked_append (ops ops' : List UserOp) : asked (ops ++ ops') = asked ops ++ asked ops' :=
  List.filterMap_append ..

/-- Those before the first call that closes the stream. -/
def sent : List UserOp → List Str
  | [] => []
  | .stop true :: _ => []
  | .getPublisher str :: ops => str :: sent ops
  | .stop false :: ops | .setSubscriber _ :: ops | .setDeleter _ :: ops => sent ops

theorem sent_append (ops ops' : List UserOp) :
    sent (ops ++ ops') = sent ops ++ if .stop true ∈ ops then [] else sent ops' := by
  induction ops with
  | nil => simp [sent]
  | cons op ops ih =>
    rw [List.cons_append]
    cases op with
    | stop closes => cases closes <;> simp [sent, ih]
    | getPublisher | setSubscriber | setDeleter => simp [sent, ih]

theorem publishedStrings_events (http : Http ρ) (req : Request) (d : Handling ρ F A) :
    publishedStrings (d.events http req) = [] := by
  rw [Handling.events, publishedStrings_append]
  cases d.called <;> cases d.response http req <;> rfl

namespace Async.HttpServer

theorem userOp_stop (h : HttpServer ρ F A) (closes : Bool) :
    h.userOp (.stop closes) = some { h with ws := h.ws && !closes } := by
  obtain ⟨_, _, _, ws, _, _, _, _, _, _⟩ := h
  cases ws with
  | false => rfl
  | true => cases closes <;> rfl

theorem userOp_getPublisher (h : HttpServer ρ F A) (str : Str) :
    h.userOp (.getPublisher str) = some (if h.ws then h.record (.published str) else h) := by
  cases hws : h.ws <;> simp [userOp, publisher, useWs, hws]

/-- The strings were published as the calls on the subscriber say, and the stream is there unless
one of them has closed it. -/
structure Publishing (ops : List UserOp) (h : HttpServer ρ F A) : Prop where
  published : publishedStrings h.log = sent ops
  ws : h.ws = decide (.stop true ∉ ops)

theorem Publishing.userOp {ops : List UserOp} {h u : HttpServer ρ F A} (hs : h.Publishing ops)
    {op : UserOp} (hu : h.userOp op = some u) : u.Publishing (ops ++ [op]) := by
  have hpublished := hs.published
  have hws := hs.ws
  cases op with
  | stop closes =>
    rw [userOp_stop] at hu
    obtain rfl := Option.some.inj hu
    refine ⟨?_, by cases closes <;> simp [hws]⟩
    rw [sent_append]
    cases closes <;> simpa [sent] using hpublished
  | getPublisher str =>
    rw [userOp_getPublisher] at hu
    obtain rfl := Option.some.inj hu
    -- `publisher` tests `m_ws`, which only a closing `stop` resets
    by_cases hstop : .stop true ∈ ops
    · have hclosed : h.ws = false := by simp [hws, hstop]
      exact ⟨by simp [hclosed, sent_append, hstop, hpublished], by simp [hclosed, hstop]⟩
    · have hopen : h.ws = true := by simp [hws, hstop]
      refine ⟨?_, by simp [hopen, hstop, record]⟩
      rw [if_pos hopen, record, publishedStrings_append, hpublished, sent_append, if_neg hstop]
      rfl
  | setSubscriber functor =>
    obtain rfl := Option.some.inj hu
    exact ⟨by simp [hpublished, sent_append, sent], by simp [hws]⟩
  | setDeleter functor =>
    obtain rfl := Option.some.inj hu
    exact ⟨by simp [hpublished, sent_append, sent], by simp [hws]⟩

theorem Publishing.userOps {ops calls : List UserOp} {h u : HttpServer ρ F A}
    (hs : h.Publishing ops) (hu : h.userOps calls = some u) : u.Publishing (ops ++ calls) := by
  induction calls generalizing ops h with
  | nil =>
    obtain rfl := Option.some.inj hu
    rwa [List.append_nil]
  | cons op calls ih =>
    rw [HttpServer.userOps, List.foldlM_cons, Option.bind_eq_bind, Option.bind_eq_some_iff] at hu
    obtain ⟨v, hop, hv⟩ := hu
    rw [List.append_cons]
    exact ih (hs.userOp hop) hv

/-- What has been published on a connection, and where it is. Nothing has been asked for before
the handshake is over. -/
structure Exact (ops : List UserOp) (h : HttpServer ρ F A) : Prop where
  published : publishedStrings h.log = sent ops
  before : h.pending = .read ∨ (∃ close, h.pending = .write close) ∨ h.pending = .accept → ops = []
  ready : h.AcceptReady
  ws : h.pending = .readWs → h.ws = decide (.stop true ∉ ops)

/-- So it is unless a null pointer was used. -/
def ExactOrCrashed (ops : List UserOp) (h : HttpServer ρ F A) : Prop :=
  h.pending = .nullDeref ∨ h.Exact ops

theorem Publishing.exact {ops : List UserOp} {h : HttpServer ρ F A} (hs : h.Publishing ops)
    (hp : h.Upgraded) : h.Exact ops := by
  refine ⟨hs.published, fun hbefore => ?_, fun haccept => absurd haccept hp.sound.1, fun _ => hs.ws⟩
  rcases hp with hp | hp | ⟨e, hp⟩
  all_goals simp [hp] at hbefore

/-- User code has run, and the connection reads on, gives up or ends with what it threw. -/
theorem Publishing.callUser {ops : List UserOp} {h : HttpServer ρ F A} (hs : h.Publishing ops)
    (run : UserRun) {next : HttpServer ρ F A → Option (HttpServer ρ F A)}
    (hnext : ∀ u u' : HttpServer ρ F A, u.Publishing (ops ++ run.ops) → next u = some u' →
      u'.Exact (ops ++ run.ops)) (k : HttpServer ρ F A) :
    (k.orCrash (h.callUser run next)).ExactOrCrashed (ops ++ run.ops) := by
  -- the strings are out before the throw, or before the null stream is used
  obtain ⟨u, hops, _⟩ := h.userOps_safe run.ops
  have hu := hs.userOps hops
  rw [HttpServer.callUser, hops]
  cases hthrown : run.thrown with
  | some e =>
    have hthrew : { u with pending := .threw e }.Publishing (ops ++ run.ops) :=
      ⟨hu.published, hu.ws⟩
    exact .inr (hthrew.exact (.inr (.inr ⟨e, rfl⟩)))
  | none =>
    cases heq : next u with
    | none => exact .inl (by simp [orCrash, heq])
    | some u' => exact .inr (by simpa [orCrash, heq] using hnext u u' hu heq)

theorem Publishing.doReadWs {ops : List UserOp} {h h' : HttpServer ρ F A} (hs : h.Publishing ops)
    (heq : h.doReadWs = some h') : h'.Exact ops := by
  cases hws : h.ws with
  | false => simp [HttpServer.doReadWs, useWs, hws] at heq
  | true =>
    obtain rfl : { h with pending := .readWs } = h' := by
      simpa [HttpServer.doReadWs, useWs, hws] using heq
    exact Publishing.exact ⟨hs.published, hs.ws⟩ (.inl rfl)

theorem onAcceptWs_exact {ops : List UserOp} {h : HttpServer ρ F A} (hi : h.Exact ops)
    (hp : h.pending = .accept) (ok : Bool) (handler : WsHandlerRun A) :
    (h.orCrash (h.onAcceptWs ok handler)).ExactOrCrashed
      (ops ++ userCalls h.wsSub (.accepted (F := F) ok handler)) := by
  obtain rfl := hi.before (.inr (.inr hp))
  obtain ⟨hws, hfunc⟩ := hi.ready hp
  obtain ⟨f, hf⟩ := Option.isSome_iff_exists.mp hfunc
  cases ok with
  | false =>
    have hfailed : { h with pending := .failed }.Publishing [] := ⟨hi.published, by simp [hws]⟩
    exact .inr (hfailed.exact (.inr (.inl rfl)))
  | true =>
    obtain ⟨u, d, heq, hwsu, hlogu, _⟩ := onAcceptWs_calls hf handler
    have hu : u.Publishing [] := by
      refine ⟨?_, by simp [hwsu, hws]⟩
      rw [hlogu, publishedStrings_append, hi.published]
      rfl
    rw [heq]
    exact hu.callUser handler.run (fun _ _ hv hread => hv.doReadWs hread) h

theorem onReadWs_exact {ops : List UserOp} {h : HttpServer ρ F A} (hi : h.Exact ops)
    (hp : h.pending = .readWs) (text : Bool) (payload : Str) (run : UserRun) :
    (h.orCrash (h.onReadWs text payload run)).ExactOrCrashed
      (ops ++ if h.calls text then run.ops else []) := by
  cases hws : h.ws with
  | false =>
    rw [onReadWs_of_released hws]
    exact .inl rfl
  | true =>
    cases hcalls : h.calls text with
    | false =>
      rw [onReadWs_of_not_calls hcalls]
      have hread : { h with buffer := h.buffer ++ payload }.doReadWs =
          some { h with buffer := h.buffer ++ payload, pending := .readWs } := by
        simp [doReadWs, useWs, hws]
      rw [hread]
      simp only [Bool.false_eq_true, if_false, List.append_nil]
      exact .inr (Publishing.exact ⟨hi.published, hi.ws hp⟩ (.inl rfl))
    | true =>
      obtain ⟨u, heq, hwsu, hlogu, _⟩ := onReadWs_calls hcalls hws payload run
      have hu : u.Publishing ops := by
        refine ⟨?_, hwsu.trans (hi.ws hp)⟩
        rw [hlogu, publishedStrings_append, hi.published]
        exact List.append_nil _
      rw [heq, if_pos rfl]
      exact hu.callUser run (fun _ _ hv hread => hv.doReadWs hread) h

theorem onReadWsError_exact {ops : List UserOp} {h : HttpServer ρ F A} (hi : h.Exact ops)
    (hp : h.pending = .readWs) (run : UserRun) :
    (h.orCrash (h.onReadWsError run)).ExactOrCrashed
      (ops ++ userCalls h.wsSub (.wsError (F := F) (A := A) run)) := by
  have hrelease : ∀ {calls : List UserOp} {u u' : HttpServer ρ F A},
      publishedStrings u.log = sent calls → u.release = some u' → u'.Exact calls := by
    intro calls u u' hpublished heq
    obtain rfl := Option.some.inj heq
    exact ⟨hpublished, by simp, by simp [AcceptReady], by simp⟩
  rw [onReadWsError, userCalls]
  split
  · have hu : (h.record .deleter).Publishing ops := by
      refine ⟨?_, hi.ws hp⟩
      rw [record, publishedStrings_append, hi.published]
      exact List.append_nil _
    exact hu.callUser run (fun _ _ hv heq => hrelease hv.published heq) h
  · rw [List.append_nil]
    exact .inr (hrelease hi.published rfl)

/-- One step publishes what user code asks for in it, as long as the stream is open. -/
theorem step_exact (http : Http ρ) {ops : List UserOp} {h t : HttpServer ρ F A}
    {act : Action F A} (hi : h.ExactOrCrashed ops) (hstep : step http h act = some t) :
    t.ExactOrCrashed (ops ++ userCalls h.wsSub act) := by
  have hcase := step_eq_some hstep
  rcases hi with hnull | hi
  · cases act <;> simp [hnull] at hcase
  cases act with
  | read a =>
    obtain ⟨hp, rfl⟩ := hcase
    obtain rfl := hi.before (.inl hp)
    obtain ⟨hnull, hready⟩ := onRead_acceptReady http h a
    -- what answers a request publishes nothing and goes to no WebSocket read
    refine .inr ⟨?_, fun _ => rfl, hready, ?_⟩
    · rw [(h.onRead_follows http a).1, publishedStrings_append, hi.published,
        publishedStrings_events]
      rfl
    · rw [(h.onRead_follows http a).2.1]
      exact fun hread => absurd hread (follows_ne_readWs http a.req _)
  | readError endOfStream =>
    obtain ⟨_, rfl⟩ := hcase
    rw [userCalls, List.append_nil]
    refine .inr ⟨hi.published, ?_, ?_, ?_⟩
    all_goals cases endOfStream <;> simp [onReadError, AcceptReady]
  | written ok =>
    obtain ⟨close, hp, rfl⟩ := hcase
    obtain rfl := hi.before (.inr (.inl ⟨close, hp⟩))
    have hpublished : publishedStrings (h.onWrite close ok).log = [] := by
      unfold onWrite
      split_ifs <;> exact hi.published
    refine .inr ⟨hpublished, fun _ => rfl, ?_, ?_⟩
    all_goals cases ok <;> cases close <;> simp [onWrite, AcceptReady]
  | accepted ok handler =>
    obtain ⟨hp, rfl⟩ := hcase
    exact onAcceptWs_exact hi hp ok handler
  | message text payload run =>
    obtain ⟨hp, rfl⟩ := hcase
    exact onReadWs_exact hi hp text payload run
  | wsError run =>
    obtain ⟨hp, rfl⟩ := hcase
    exact onReadWsError_exact hi hp run
  | user op =>
    obtain ⟨hp, rfl⟩ := hcase
    obtain ⟨u, heq, hpending, _⟩ := h.userOp_safe op
    have hs : h.Publishing ops := ⟨hi.published, hi.ws hp⟩
    rw [heq]
    exact .inr ((hs.userOp heq).exact (.inl (hpending.trans hp)))

theorem run_exact (http : Http ρ) {lessenAll : Bool} {acts : List (Action F A)}
    {t : HttpServer ρ F A} (hrun : (step http).run (init lessenAll) acts = some t) :
    t.ExactOrCrashed
      ((step http).observe (fun h act => userCalls h.wsSub act) (init lessenAll) acts) := by
  have hinit : (init lessenAll : HttpServer ρ F A).Exact [] :=
    ⟨rfl, fun _ => rfl, by simp [AcceptReady, init], by simp [init]⟩
  exact Machine.run_observed (fun _ _ _ _ hi hstep => step_exact http hi hstep) (.inr hinit) hrun

end Async.HttpServer

namespace Coro.Session

theorem userOps_published (s : Session ρ F A) (ops : List UserOp) :
    publishedStrings (s.userOps ops).log = publishedStrings s.log ++ asked ops := by
  induction ops generalizing s with
  | nil => exact (List.append_nil _).symm
  | cons op ops ih =>
    rw [userOps, List.foldl_cons]
    refine (ih (s.userOp op)).trans ?_
    cases op with
    | stop closes =>
      rw [userOp]
      split <;> rfl
    | getPublisher str =>
      rw [userOp, record, publishedStrings_append, List.append_assoc]
      rfl
    | setSubscriber | setDeleter => rfl

theorem answer_published (http : Http ρ) (s : Session ρ F A) (returns : Bool)
    (answered : Except Thrown ρ) :
    publishedStrings (s.answer http returns answered).log = publishedStrings s.log := by
  cases answered with
  | ok res => exact (publishedStrings_append ..).trans (List.append_nil _)
  | error e => rfl

/-- User code publishes all it asks for, whether it returns or throws. -/
theorem callUser_published (http : Http ρ) {s : Session ρ F A} {strs : List Str}
    (hs : publishedStrings s.log = strs) (run : UserRun)
    {next : Session ρ F A → Session ρ F A} (hnext : ∀ u, (next u).log = u.log) :
    publishedStrings (s.callUser http run next).log = strs ++ asked run.ops := by
  rw [callUser, ← hs, ← s.userOps_published]
  cases run.thrown with
  | some e => exact answer_published ..
  | none => exact congrArg publishedStrings (hnext _)

theorem onAcceptWs_published (http : Http ρ) {s : Session ρ F A} (hfunc : s.func.isSome)
    (ok : Bool) (handler : WsHandlerRun A) :
    publishedStrings (s.onAcceptWs http ok handler).log =
      publishedStrings s.log ++ asked (if ok then handler.run.ops else []) := by
  obtain ⟨f, hf⟩ := Option.isSome_iff_exists.mp hfunc
  cases ok with
  | false =>
    have hanswer := answer_published http s true
      (http.thrownAnswer s.req (.exception "accept".toList))
    exact hanswer.trans (List.append_nil _).symm
  | true =>
    rw [onAcceptWs, if_neg (by simp), hf, if_pos rfl]
    refine callUser_published http ?_ handler.run fun _ => rfl
    exact (publishedStrings_append ..).trans (List.append_nil _)

/-- One step publishes what user code asks for in it. -/
theorem step_published (http : Http ρ) {s t : Session ρ F A} {act : Action F A}
    (hready : s.pending = .accept → s.func.isSome) (hstep : step http s act = some t) :
    publishedStrings t.log = publishedStrings s.log ++ asked (userCalls s.wsSub act) := by
  have hcase := step_eq_some hstep
  cases act with
  | read a =>
    obtain ⟨_, rfl⟩ := hcase
    rw [(s.onRead_follows http a).1, publishedStrings_append, publishedStrings_events]
    rfl
  | readError endOfStream =>
    obtain ⟨_, rfl⟩ := hcase
    exact (List.append_nil _).symm
  | written ok =>
    obtain ⟨returns, _, rfl⟩ := hcase
    obtain ⟨pending, _, heq⟩ := s.onWrite_eq returns ok
    rw [heq]
    exact (List.append_nil _).symm
  | accepted ok handler =>
    obtain ⟨hp, rfl⟩ := hcase
    exact onAcceptWs_published http (hready hp) ok handler
  | message text payload run =>
    obtain ⟨_, rfl⟩ := hcase
    rw [onReadWs, userCalls]
    cases s.wsSub.any WsSubscriber.subscriber with
    | false => exact (List.append_nil _).symm
    | true =>
      cases text with
      | false => exact (List.append_nil _).symm
      | true =>
        refine callUser_published http ?_ run fun _ => rfl
        exact (publishedStrings_append ..).trans (List.append_nil _)
  | wsError run =>
    obtain ⟨_, rfl⟩ := hcase
    rw [onReadWsError, userCalls]
    cases s.wsSub.any WsSubscriber.deleter with
    | false => exact (List.append_nil _).symm
    | true =>
      refine callUser_published http ?_ run fun _ => rfl
      exact (publishedStrings_append ..).trans (List.append_nil _)
  | user op =>
    obtain ⟨_, rfl⟩ := hcase
    exact s.userOps_published [op]

/-- What has been published; the closure of a session keeps its stream. -/
structure Exact (ops : List UserOp) (s : Session ρ F A) : Prop where
  published : publishedStrings s.log = asked ops
  ready : s.pending = .accept → s.func.isSome
  deleted : .deleter ∈ s.log → s.Over

theorem run_exact (http : Http ρ) {lessenAll : Bool} {acts : List (Action F A)}
    {t : Session ρ F A} (hrun : (step http).run (init lessenAll) acts = some t) :
    t.Exact ((step http).observe (fun s act => userCalls s.wsSub act) (init lessenAll) acts) := by
  have hinit : (init lessenAll : Session ρ F A).Exact [] := ⟨rfl, by simp [init], by simp [init]⟩
  refine Machine.run_observed (fun ops s act t hi hstep => ?_) hinit hrun
  obtain ⟨hready, hdeleted⟩ := step_deleter http hi.ready hi.deleted hstep
  refine ⟨?_, hready, hdeleted⟩
  rw [step_published http hi.ready hstep, hi.published, asked_append]

end Coro.Session

/-- Whatever user code does in a run, and wherever it throws, the asynchronous server hands over
to the stream the strings it was asked for before the stream was closed, if no null stream was
used, and the coroutine server hands over all of them. -/
theorem published_exact (http : Http ρ) (lessenAll : Bool) (acts : List (Action F A)) :
    (∀ t, (Async.HttpServer.step http).run (.init lessenAll) acts = some t →
      t.pending ≠ .nullDeref →
      publishedStrings t.log = sent ((Async.HttpServer.step http).observe
        (fun h act => userCalls h.wsSub act) (.init lessenAll) acts)) ∧
    (∀ t, (Coro.Session.step http).run (.init lessenAll) acts = some t →
      publishedStrings t.log = asked ((Coro.Session.step http).observe
        (fun s act => userCalls s.wsSub act) (.init lessenAll) acts)) := by
  refine ⟨fun t hrun hnull => ?_, fun t hrun => (Coro.Session.run_exact http hrun).published⟩
  exact ((Async.HttpServer.run_exact http hrun).resolve_left hnull).published

/-- A handler publishes, the session is stopped between two reads, and another string comes. -/
theorem published_exact_stopped :
    let acts := [.read upgradeA,
      .accepted true ⟨.empty, ⟨[.getPublisher "before".toList], none⟩⟩,
      .user (.stop true), .user (.getPublisher "after".toList)]
    (∃ t, (Async.HttpServer.step Message.http).run (.init false) acts = some t ∧
      publishedStrings t.log = ["before".toList]) ∧
    ∃ t, (Coro.Session.step Message.http).run (.init false) acts = some t ∧
      publishedStrings t.log = ["before".toList, "after".toList] := by
  obtain ⟨hasync, hcoro⟩ := published_exact Message.http false [.read upgradeA,
    .accepted true ⟨.empty, ⟨[.getPublisher "before".toList], none⟩⟩,
    .user (.stop true), .user (.getPublisher "after".toList)]
  exact ⟨⟨_, rfl, hasync _ rfl (by decide)⟩, ⟨_, rfl, hcoro _ rfl⟩⟩

end FHT.Server
