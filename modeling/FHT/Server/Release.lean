import FHT.Server.Handling

/-!
# The WebSocket stream after its release

`stop` releases the stream from inside user code. The closures of the `wsSubscriber` test
`m_ws` before they use it; `do_read_ws` and `on_read_ws` do not, although user code may have
run since they were last certain of it.

## Main results

- `streamNeverNull_iff` — the runs in which no null stream is used
-/

namespace FHT.Server.Async.HttpServer

variable {ρ F A : Type}

/-- One call on the `wsSubscriber` is safe, and only a `stop` that closes releases the
stream. -/
theorem userOp_safe (h : HttpServer ρ F A) (op : UserOp) :
    ∃ h', h.userOp op = some h' ∧ h'.pending = h.pending ∧
      (h'.ws ↔ h.ws ∧ op ≠ .stop true) := by
  cases op with
  | stop closes =>
    cases hws : h.ws with
    | false => exact ⟨h, by simp [userOp, close, hws], rfl, by simp [hws]⟩
    | true => cases closes <;> simp [userOp, close, useWs, hws]
  | getPublisher str =>
    cases hws : h.ws with
    | false => exact ⟨h, by simp [userOp, publisher, hws], rfl, by simp [hws]⟩
    | true => simp [userOp, publisher, useWs, hws, record]
  | setSubscriber functor => exact ⟨_, rfl, rfl, by simp⟩
  | setDeleter functor => exact ⟨_, rfl, rfl, by simp⟩

theorem userOps_safe (h : HttpServer ρ F A) (ops : List UserOp) :
    ∃ h', h.userOps ops = some h' ∧ h'.pending = h.pending ∧
      (h'.ws ↔ h.ws ∧ .stop true ∉ ops) := by
  induction ops generalizing h with
  | nil => exact ⟨h, rfl, rfl, by simp⟩
  | cons op ops ih =>
    obtain ⟨h₁, hop, hpending₁, hws₁⟩ := h.userOp_safe op
    obtain ⟨h₂, hops, hpending₂, hws₂⟩ := ih h₁
    refine ⟨h₂, ?_, hpending₂.trans hpending₁, ?_⟩
    · rw [userOps, List.foldlM_cons, hop]
      exact hops
    · rw [hws₂, hws₁, List.mem_cons, not_or, and_assoc]
      simp only [ne_eq, eq_comm]

theorem doReadWs_isSome_iff (h : HttpServer ρ F A) : h.doReadWs.isSome ↔ h.ws = true := by
  unfold doReadWs useWs
  cases h.ws <;> simp

/-- User code followed by a read uses a null stream exactly if it has been released by then. -/
theorem callUser_doReadWs_isSome_iff (h : HttpServer ρ F A) (run : UserRun) :
    (h.callUser run doReadWs).isSome ↔
      (run.thrown = none → h.ws = true ∧ .stop true ∉ run.ops) := by
  obtain ⟨h', hops, _, hws⟩ := h.userOps_safe run.ops
  rw [callUser, hops]
  cases run.thrown with
  | some e => simp
  | none => simpa [doReadWs_isSome_iff] using hws

theorem callUser_isSome (h : HttpServer ρ F A) (run : UserRun)
    {next : HttpServer ρ F A → Option (HttpServer ρ F A)} (hnext : ∀ h', (next h').isSome) :
    (h.callUser run next).isSome := by
  obtain ⟨h', hops, _⟩ := h.userOps_safe run.ops
  rw [callUser, hops]
  cases run.thrown with
  | some e => rfl
  | none => exact hnext h'

/-- The stream is there when it is used: a handler that returns from an accepted WebSocket has
not released it; when a message arrives it has not been released, and a subscriber that is
called for a text and returns has not released it either. -/
def StreamHeld (h : HttpServer ρ F A) : Action F A → Prop
  | .accepted ok handler => ok → handler.run.thrown = none → .stop true ∉ handler.run.ops
  | .message text _ run => h.ws = true ∧
      (h.wsSub.any WsSubscriber.subscriber → text → run.thrown = none → .stop true ∉ run.ops)
  | _ => True

/-- A state that waits for no handshake and in which no null pointer was used. -/
def Sound (h : HttpServer ρ F A) : Prop := h.pending ≠ .accept ∧ h.pending ≠ .nullDeref

/-- Where a connection is after its handshake, if no null pointer was used. -/
def Upgraded (h : HttpServer ρ F A) : Prop :=
  h.pending = .readWs ∨ h.pending = .failed ∨ ∃ e, h.pending = .threw e

theorem Upgraded.sound {h : HttpServer ρ F A} (hu : h.Upgraded) : h.Sound := by
  rcases hu with hp | hp | ⟨e, hp⟩
  · simp [Sound, hp]
  · simp [Sound, hp]
  · simp [Sound, hp]

theorem doReadWs_upgraded {h h' : HttpServer ρ F A} (heq : h.doReadWs = some h') : h'.Upgraded := by
  unfold doReadWs useWs at heq
  cases hws : h.ws with
  | false => simp [hws] at heq
  | true =>
    obtain rfl : { h with pending := .readWs } = h' := by simpa [hws] using heq
    exact .inl rfl

theorem callUser_upgraded {h h' : HttpServer ρ F A} {run : UserRun}
    {next : HttpServer ρ F A → Option (HttpServer ρ F A)}
    (hnext : ∀ u u', next u = some u' → u'.Upgraded) (heq : h.callUser run next = some h') :
    h'.Upgraded := by
  obtain ⟨u, hops, _⟩ := h.userOps_safe run.ops
  rw [callUser, hops] at heq
  cases hthrown : run.thrown with
  | some e =>
    obtain rfl : { u with pending := .threw e } = h' := by simpa [hthrown] using heq
    exact .inr (.inr ⟨e, rfl⟩)
  | none => exact hnext u h' (by simpa [hthrown] using heq)

/-- The completion handler of the handshake. -/
theorem onAcceptWs_isSome_iff {h : HttpServer ρ F A} (hws : h.ws = true) (hfunc : h.func.isSome)
    (ok : Bool) (handler : WsHandlerRun A) :
    (h.onAcceptWs ok handler).isSome ↔ StreamHeld h (.accepted ok handler) := by
  obtain ⟨f, hf⟩ := Option.isSome_iff_exists.mp hfunc
  cases ok with
  | false => simp [onAcceptWs, StreamHeld]
  | true =>
    obtain ⟨u, _, hcall, hu, _⟩ := onAcceptWs_calls hf handler
    rw [hcall, callUser_doReadWs_isSome_iff, hu, hws]
    simp [StreamHeld]

theorem onAcceptWs_upgraded {h h' : HttpServer ρ F A} {ok : Bool} {handler : WsHandlerRun A}
    (heq : h.onAcceptWs ok handler = some h') : h'.Upgraded := by
  cases ok with
  | false =>
    obtain rfl : { h with pending := .failed } = h' := by simpa [onAcceptWs] using heq
    exact .inr (.inl rfl)
  | true =>
    cases hf : h.func with
    | none => simp [onAcceptWs, hf] at heq
    | some f =>
      obtain ⟨u, _, hcall, _⟩ := onAcceptWs_calls hf handler
      exact callUser_upgraded (fun _ _ => doReadWs_upgraded) (hcall.symm.trans heq)

/-- The completion handler of a message. -/
theorem onReadWs_isSome_iff (h : HttpServer ρ F A) (text : Bool) (payload : Str)
    (run : UserRun) :
    (h.onReadWs text payload run).isSome ↔ StreamHeld h (.message text payload run) := by
  cases hws : h.ws with
  | false => simp [onReadWs_of_released hws, StreamHeld, hws]
  | true =>
    cases hcalls : h.calls text with
    | false =>
      rw [onReadWs_of_not_calls hcalls, doReadWs_isSome_iff, StreamHeld]
      have hnot : h.wsSub.any WsSubscriber.subscriber → ¬ text = true := by
        simpa [calls] using hcalls
      exact ⟨fun _ => ⟨hws, fun hsub htext => absurd htext (hnot hsub)⟩, fun _ => hws⟩
    | true =>
      obtain ⟨u, hcall, hu, _⟩ := onReadWs_calls hcalls hws payload run
      obtain ⟨hsub, htext⟩ := Bool.and_eq_true_iff.mp hcalls
      rw [hcall, callUser_doReadWs_isSome_iff, hu, hws]
      simp [StreamHeld, hsub, htext, hws]

theorem onReadWs_upgraded {h h' : HttpServer ρ F A} {text : Bool} {payload : Str} {run : UserRun}
    (heq : h.onReadWs text payload run = some h') : h'.Upgraded := by
  cases hws : h.ws with
  | false => simp [onReadWs_of_released hws] at heq
  | true =>
    cases hcalls : h.calls text with
    | false => exact doReadWs_upgraded ((onReadWs_of_not_calls hcalls payload run).symm.trans heq)
    | true =>
      obtain ⟨u, hcall, _⟩ := onReadWs_calls hcalls hws payload run
      exact callUser_upgraded (fun _ _ => doReadWs_upgraded) (hcall.symm.trans heq)

theorem release_upgraded {h h' : HttpServer ρ F A} (heq : h.release = some h') : h'.Upgraded := by
  obtain rfl := Option.some.inj heq
  exact .inr (.inl rfl)

/-- The completion handler of a read error uses no stream. -/
theorem onReadWsError_safe (h : HttpServer ρ F A) (run : UserRun) :
    ∃ h', h.onReadWsError run = some h' ∧ h'.Upgraded := by
  rw [onReadWsError]
  split
  · have hsome : ((h.record .deleter).callUser run release).isSome :=
      callUser_isSome _ run fun _ => rfl
    obtain ⟨h', heq⟩ := Option.isSome_iff_exists.mp hsome
    exact ⟨h', heq, callUser_upgraded (fun _ _ => release_upgraded) heq⟩
  · exact ⟨_, rfl, release_upgraded rfl⟩

theorem orCrash_pending_iff (h : HttpServer ρ F A) {o : Option (HttpServer ρ F A)}
    (ho : ∀ h', o = some h' → h'.Upgraded) :
    (h.orCrash o).pending ≠ .accept ∧ ((h.orCrash o).pending ≠ .nullDeref ↔ o.isSome) := by
  cases o with
  | none => simp [orCrash]
  | some h' => exact ⟨(ho h' rfl).sound.1, by simp [orCrash, (ho h' rfl).sound.2]⟩

/-- While the handshake is pending the stream and the handler are there. -/
def AcceptReady (h : HttpServer ρ F A) : Prop :=
  h.pending = .accept → h.ws = true ∧ h.func.isSome

theorem lambda_pending (http : Http ρ) (h : HttpServer ρ F A) (res : ρ) :
    (h.lambda http res).pending = .write (http.needEof res) := rfl

theorem answer_acceptReady (http : Http ρ) (h : HttpServer ρ F A) (answered : Except Thrown ρ) :
    (h.answer http answered).pending ≠ .nullDeref ∧ (h.answer http answered).AcceptReady := by
  cases answered <;> simp [answer, AcceptReady, lambda_pending]

theorem onRead_acceptReady (http : Http ρ) (h : HttpServer ρ F A) (a : Arrival F A) :
    (h.onRead http a).pending ≠ .nullDeref ∧ (h.onRead http a).AcceptReady := by
  rw [onRead]
  dsimp only
  split
  · simp [AcceptReady, lambda_pending]
  split
  · simp [AcceptReady, lambda_pending]
  split
  · simp [AcceptReady]
  rw [dispatch]
  dsimp only
  split
  · simp [AcceptReady]
  split
  · simp [AcceptReady]
  split
  · simp [AcceptReady, lambda_pending]
  split
  · simp [AcceptReady]
  · rw [callHandler]
    dsimp only
    split
    · simp [AcceptReady, lambda_pending]
    · exact answer_acceptReady ..

/-- One step uses no null stream exactly if the stream is held. -/
theorem step_pending_iff (http : Http ρ) {h t : HttpServer ρ F A} {act : Action F A}
    (hready : h.AcceptReady) (hstep : step http h act = some t) :
    (t.pending ≠ .nullDeref ↔ StreamHeld h act) ∧ t.AcceptReady := by
  have hcase := step_eq_some hstep
  cases act with
  | read a =>
    obtain ⟨_, rfl⟩ := hcase
    obtain ⟨hnull, hacc⟩ := onRead_acceptReady http h a
    exact ⟨by simp [hnull, StreamHeld], hacc⟩
  | readError endOfStream =>
    obtain ⟨_, rfl⟩ := hcase
    cases endOfStream <;> simp [onReadError, StreamHeld, AcceptReady]
  | written ok =>
    obtain ⟨close, _, rfl⟩ := hcase
    cases ok <;> cases close <;> simp [onWrite, StreamHeld, AcceptReady]
  | accepted ok handler =>
    -- `run_ws` has set the stream, and nothing ran since
    obtain ⟨hp, rfl⟩ := hcase
    obtain ⟨hws, hfunc⟩ := hready hp
    obtain ⟨hacc, hnull⟩ := h.orCrash_pending_iff fun _ => onAcceptWs_upgraded
    exact ⟨hnull.trans (onAcceptWs_isSome_iff hws hfunc ok handler), fun hc => absurd hc hacc⟩
  | message text payload run =>
    obtain ⟨_, rfl⟩ := hcase
    obtain ⟨hacc, hnull⟩ := h.orCrash_pending_iff fun _ => onReadWs_upgraded
    exact ⟨hnull.trans (h.onReadWs_isSome_iff text payload run), fun hc => absurd hc hacc⟩
  | wsError run =>
    obtain ⟨_, rfl⟩ := hcase
    obtain ⟨h', heq, hup⟩ := h.onReadWsError_safe run
    rw [heq]
    exact ⟨by simp [orCrash, hup.sound.2, StreamHeld], fun hc => absurd hc hup.sound.1⟩
  | user op =>
    -- the closures test `m_ws` themselves
    obtain ⟨hp, rfl⟩ := hcase
    obtain ⟨h', heq, hpending, _⟩ := h.userOp_safe op
    rw [heq]
    simp [orCrash, AcceptReady, hpending, hp, StreamHeld]

/-- In a run from a new connection no step uses a stream that is null. -/
def StreamNeverNull (http : Http ρ) (lessenAll : Bool) (acts : List (Action F A)) : Prop :=
  (step http).Along (fun _ _ t => t.pending ≠ .nullDeref) (init lessenAll) acts

/-- The runs in which no null stream is used are those in which the stream is held at every
step. -/
theorem streamNeverNull_iff (http : Http ρ) (lessenAll : Bool) (acts : List (Action F A)) :
    StreamNeverNull http lessenAll acts ↔
      (step http).Along (fun h act _ => StreamHeld h act) (init lessenAll) acts := by
  have hinit : (init lessenAll : HttpServer ρ F A).AcceptReady := by simp [AcceptReady, init]
  refine Machine.along_congr_of_invariant (I := AcceptReady) ?_ ?_ hinit
  · exact fun h act t hready hstep => (step_pending_iff http hready hstep).2
  · exact fun h act t hready hstep => (step_pending_iff http hready hstep).1

/-- A handler that stops its WebSocket and returns: `do_read_ws` uses the null stream. -/
theorem stop_in_handler : ¬ StreamNeverNull Message.http false
    [.read upgradeA, .accepted true ⟨.empty, ⟨[.stop true], none⟩⟩] := by
  intro h
  have hlast := Machine.along_iff_forall.mp h [.read upgradeA]
    (.accepted true ⟨.empty, ⟨[.stop true], none⟩⟩) [] rfl _ _ rfl rfl
  exact hlast rfl

end FHT.Server.Async.HttpServer
