import FHT.Lib.Ownership
import FHT.Server.Deleter

/-!
# Who owns the subscriber of a WebSocket

The handler is given a weak pointer to the `wsSubscriber` and locks it for each call. The strong
references are locals and members of the server, and the captures of the closures that the
server stores in the `wsSubscriber`. The asynchronous server captures `this` there; the
coroutine server captures the stream and, in `close`, the subscriber itself.

## Main results

- `released_iff` — after a session the asynchronous server has released the subscriber, and the
  coroutine server never has
-/

namespace FHT.Server

variable {ρ F A : Type}

/-- What holds references from outside: the pending operation of an `HttpServer`, the frame of
a `session`, and a call on a locked weak pointer. -/
inductive Root
  | operation
  | frame
  | call
  deriving DecidableEq

/-- An `HttpServer`, the stream of its WebSocket and the `wsSubscriber`. -/
inductive Object
  | server
  | stream
  | subscriber
  deriving DecidableEq

abbrev Owners := Ownership Root Object

/-- A connection with its owners. `reached` records what was published to the stream after the
session. -/
structure Owned (σ : Type) where
  conn : σ
  owners : Owners
  reached : List Str

/-- A step of the connection, or a call of the user after the session. -/
inductive OwnedAction (F A : Type)
  | conn (act : Action F A)
  | late (op : UserOp)

/-- `f` runs between `lock()` and the end of the call, if the object is still there. -/
def Owners.locked (g : Owners) (f : Owners → Owners) : Owners :=
  if .subscriber ∈ g.live then
    (f (g.copy (.inl .call) .subscriber)).reset (.inl .call) .subscriber
  else g

/-- What a call publishes, if it gets at the subscriber. -/
def UserOp.strs : UserOp → List Str
  | .getPublisher str => [str]
  | .stop _ | .setSubscriber _ | .setDeleter _ => []

/-- A call after the session: it has an effect if the lock succeeds. -/
def Owned.late {σ : Type} (userOp : σ → UserOp → σ) (ownOp : σ → UserOp → Owners → Owners)
    (o : Owned σ) (op : UserOp) : Owned σ :=
  if .subscriber ∈ o.owners.live then
    { conn := userOp o.conn op
      owners := ownOp o.conn op o.owners
      reached := o.reached ++ op.strs }
  else o

/-- No strong reference to the subscriber remains, a lock is empty, and nothing that was
published later has reached the stream. -/
structure Owned.Released {σ : Type} (o : Owned σ) : Prop where
  refs : ∀ e ∈ o.owners.refs, e.target ≠ .subscriber
  lock : .subscriber ∉ o.owners.live
  reached : o.reached = []

namespace Async

/-- The connection has come to its end: no operation is pending that keeps it. -/
def Pending.done : Pending → Bool
  | .closed | .failed | .threw _ => true
  | .read | .write _ | .accept | .readWs | .nullDeref => false

namespace HttpServer

/-- One call on the subscriber; `m_ws.reset()` in `close`. -/
def ownOp (h : HttpServer ρ F A) (op : UserOp) (g : Owners) : Owners :=
  g.locked fun g =>
    match op with
    | .stop closes => if h.ws && closes then g.reset (.inr .server) .stream else g
    | .getPublisher _ | .setSubscriber _ | .setDeleter _ => g

def ownOps : HttpServer ρ F A → List UserOp → Owners → Owners
  | _, [], g => g
  | h, op :: ops, g => ownOps ((h.userOp op).getD h) ops (h.ownOp op g)

/-- What the completion handler for `act` does with the owners; `t` is the state after it. -/
def own (h t : HttpServer ρ F A) (act : Action F A) (g : Owners) : Owners :=
  match act with
  | .read _ => if t.pending = .accept then g.make (.inr .server) .stream else g
  | .accepted ok handler =>
    if ok then h.ownOps handler.run.ops (g.make (.inr .server) .subscriber) else g
  | .message text _ run => if h.calls text && h.ws then h.ownOps run.ops g else g
  | .wsError run =>
    if h.wsSub.any WsSubscriber.deleter then
      let g := h.ownOps run.ops g
      if run.thrown.isSome then g
      else (g.reset (.inr .server) .subscriber).reset (.inr .server) .stream
    else (g.reset (.inr .server) .subscriber).reset (.inr .server) .stream
  | .user op => h.ownOp op g
  | .readError _ | .written _ => g

/-- A completion handler that starts no operation gives up the connection. -/
def finish (t : HttpServer ρ F A) (g : Owners) : Owners :=
  if t.pending.done then g.reset (.inl .operation) .server else g

def ownedStep (http : Http ρ) : Machine (Owned (HttpServer ρ F A)) (OwnedAction F A) :=
  fun o a =>
    match a with
    | .conn act => (step http o.conn act).map fun t =>
      { o with conn := t, owners := t.finish (o.conn.own t act o.owners) }
    | .late op =>
      if o.conn.pending.done then some (o.late (fun h op => (h.userOp op).getD h) ownOp op)
      else none

/-- A new connection, kept by its first operation. -/
def ownedInit (lessenAll : Bool) : Owned (HttpServer ρ F A) where
  conn := init lessenAll
  owners := ⟨[.server], [⟨.inl .operation, .server⟩]⟩
  reached := []

/-- The owners are sound, the references are among `full`, and the pending operation keeps the
connection. -/
structure Tied (full : List (StrongRef Root Object)) (g : Owners) : Prop where
  sound : g.Sound
  refs : g.refs.Sublist full
  operation : ⟨.inl .operation, .server⟩ ∈ g.refs

/-- The references before the upgrade, while the handshake is pending, and then. -/
def plainRefs : List (StrongRef Root Object) := [⟨.inl .operation, .server⟩]

def acceptRefs : List (StrongRef Root Object) := ⟨.inr .server, .stream⟩ :: plainRefs

def sessionRefs : List (StrongRef Root Object) := ⟨.inr .server, .subscriber⟩ :: acceptRefs

theorem Tied.mono {full full' : List (StrongRef Root Object)} {g : Owners} (h : Tied full g)
    (hsub : full.Sublist full') : Tied full' g := ⟨h.sound, h.refs.trans hsub, h.operation⟩

theorem Tied.make {full : List (StrongRef Root Object)} {g : Owners} (h : Tied full g)
    (o : Object) : Tied (⟨.inr .server, o⟩ :: full) (g.make (.inr .server) o) where
  sound := h.sound.make o fun p hp => by
    obtain rfl := Sum.inr.inj hp
    exact h.sound.target _ h.operation
  refs := h.refs.cons_cons _
  operation := List.mem_cons_of_mem _ h.operation

theorem Tied.reset {full : List (StrongRef Root Object)} {g : Owners} (h : Tied full g)
    {holder : Root ⊕ Object} {o : Object}
    (hne : StrongRef.mk holder o ≠ ⟨.inl .operation, .server⟩) : Tied full (g.reset holder o) where
  sound := h.sound.reset holder o
  refs := (g.refs_reset_sublist holder o).trans (List.erase_sublist.trans h.refs)
  operation := Ownership.root_mem_reset h.operation hne

/-- A call leaves no reference behind, if what it calls adds none. -/
theorem Tied.locked {full : List (StrongRef Root Object)} {g : Owners} (h : Tied full g)
    {f : Owners → Owners} (hf : ∀ {full g}, Tied full g → Tied full (f g)) :
    Tied full (g.locked f) := by
  rw [Owners.locked]
  split
  · next hlive =>
    have hcopy : Tied (⟨.inl .call, .subscriber⟩ :: full) (g.copy (.inl .call) .subscriber) :=
      ⟨h.sound.copy hlive (by simp), h.refs.cons_cons _, List.mem_cons_of_mem _ h.operation⟩
    obtain ⟨hsound, hrefs, hop⟩ := hf hcopy
    refine ⟨hsound.reset _ _, ?_, Ownership.root_mem_reset hop (by decide)⟩
    refine (Ownership.refs_reset_sublist _ _ _).trans ?_
    simpa using hrefs.erase ⟨.inl .call, .subscriber⟩
  · exact h

theorem Tied.ownOp {full : List (StrongRef Root Object)} {g : Owners} (h : Tied full g)
    (c : HttpServer ρ F A) (op : UserOp) : Tied full (c.ownOp op g) := by
  refine h.locked fun {full g} hg => ?_
  cases op with
  | stop closes =>
    dsimp only
    split
    · exact hg.reset (by decide)
    · exact hg
  | getPublisher | setSubscriber | setDeleter => exact hg

theorem Tied.ownOps {full : List (StrongRef Root Object)} {g : Owners} (h : Tied full g)
    (c : HttpServer ρ F A) (ops : List UserOp) : Tied full (c.ownOps ops g) := by
  induction ops generalizing c g with
  | nil => exact h
  | cons op ops ih => exact ih (h.ownOp c op) _

/-- When the last operation gives up the connection, everything it owns is destroyed. -/
theorem Tied.live_reset {g : Owners} (h : Tied sessionRefs g) :
    (g.reset (.inl .operation) .server).live = [] := by
  let rank : Object → Nat := fun o => if o = .server then 0 else 1
  refine Ownership.live_reset_eq_nil h.sound rank fun e he => ?_
  have he := (h.refs.erase ⟨.inl .operation, .server⟩).subset he
  have hcases : e = ⟨.inr .server, .subscriber⟩ ∨ e = ⟨.inr .server, .stream⟩ := by
    simpa [sessionRefs, acceptRefs, plainRefs] using he
  rcases hcases with rfl | rfl
  · exact ⟨.server, rfl, by decide⟩
  · exact ⟨.server, rfl, by decide⟩

/-- What the owners of a connection are, by the operation that is pending. -/
def Settled : Pending → Owners → Prop
  | .read, g | .write _, g => Tied plainRefs g
  | .accept, g => Tied acceptRefs g
  | .readWs, g => Tied sessionRefs g
  | .closed, g | .failed, g | .threw _, g => g.Sound ∧ g.live = []
  | .nullDeref, _ => True

theorem acceptRefs_sublist : acceptRefs.Sublist sessionRefs := List.sublist_cons_self ..

theorem plainRefs_sublist : plainRefs.Sublist sessionRefs :=
  (List.sublist_cons_self ..).trans acceptRefs_sublist

/-- A connection that has ended is settled by its last handler. -/
theorem settled_finish_of_done {t : HttpServer ρ F A} (hdone : t.pending.done = true) {g : Owners}
    (hg : Tied sessionRefs g) : Settled t.pending (t.finish g) := by
  have hempty : (t.finish g).Sound ∧ (t.finish g).live = [] := by
    rw [finish, if_pos hdone]
    exact ⟨hg.sound.reset _ _, hg.live_reset⟩
  cases hp : t.pending with
  | closed | failed | threw => exact hempty
  | read | write | accept | readWs | nullDeref => simp [hp, Pending.done] at hdone

/-- A WebSocket session goes on, has ended, or has crashed. -/
def InSession (t : HttpServer ρ F A) : Prop :=
  t.pending = .readWs ∨ t.pending.done = true ∨ t.pending = .nullDeref

theorem settled_finish {t : HttpServer ρ F A} (ht : t.InSession) {g : Owners}
    (hg : Tied sessionRefs g) : Settled t.pending (t.finish g) := by
  rcases ht with hp | hdone | hp
  · rw [finish, hp]
    exact hg
  · exact settled_finish_of_done hdone hg
  · rw [hp]
    trivial

theorem doReadWs_inSession (h u : HttpServer ρ F A) : (h.orCrash u.doReadWs).InSession := by
  rw [doReadWs, useWs]
  cases u.ws with
  | true => exact .inl rfl
  | false => exact .inr (.inr rfl)

theorem callUser_inSession (h u : HttpServer ρ F A) (run : UserRun)
    {next : HttpServer ρ F A → Option (HttpServer ρ F A)}
    (hnext : ∀ v, (h.orCrash (next v)).InSession) :
    (h.orCrash (u.callUser run next)).InSession := by
  obtain ⟨v, hops, _⟩ := u.userOps_safe run.ops
  rw [callUser, hops]
  cases hthrown : run.thrown with
  | some e => exact .inr (.inl rfl)
  | none => exact hnext v

theorem onAcceptWs_inSession (h : HttpServer ρ F A) (ok : Bool) (handler : WsHandlerRun A) :
    (h.orCrash (h.onAcceptWs ok handler)).InSession := by
  cases ok with
  | false => exact .inr (.inl rfl)
  | true =>
    cases hf : h.func with
    | none =>
      have hcrash : h.onAcceptWs true handler = none := by simp [onAcceptWs, hf]
      rw [hcrash]
      exact .inr (.inr rfl)
    | some f =>
      obtain ⟨u, d, heq, _⟩ := onAcceptWs_calls hf handler
      rw [heq]
      exact callUser_inSession h u handler.run (doReadWs_inSession h)

theorem onReadWs_inSession (h : HttpServer ρ F A) (text : Bool) (payload : Str) (run : UserRun) :
    (h.orCrash (h.onReadWs text payload run)).InSession := by
  cases hws : h.ws with
  | false =>
    rw [onReadWs_of_released hws]
    exact .inr (.inr rfl)
  | true =>
    cases hcalls : h.calls text with
    | false =>
      rw [onReadWs_of_not_calls hcalls]
      exact doReadWs_inSession h _
    | true =>
      obtain ⟨u, heq, _⟩ := onReadWs_calls hcalls hws payload run
      rw [heq]
      exact callUser_inSession h u run (doReadWs_inSession h)

theorem onReadWsError_inSession (h : HttpServer ρ F A) (run : UserRun) :
    (h.orCrash (h.onReadWsError run)).InSession := by
  rw [onReadWsError]
  split
  · exact callUser_inSession h _ run fun v => .inr (.inl rfl)
  · exact .inr (.inl rfl)

/-- One step of the connection settles its owners. -/
theorem step_settled (http : Http ρ) {h t : HttpServer ρ F A} {act : Action F A} {g : Owners}
    (hg : Settled h.pending g) (hstep : step http h act = some t) :
    Settled t.pending (t.finish (h.own t act g)) := by
  have hcase := step_eq_some hstep
  cases act with
  | read a =>
    obtain ⟨hp, rfl⟩ := hcase
    rw [hp] at hg
    have hpending := (h.onRead_follows http a).2.1
    have hwrite {close : Bool} (hpending : (h.onRead http a).pending = .write close) :
        Settled (h.onRead http a).pending
          ((h.onRead http a).finish (h.own (h.onRead http a) (.read a) g)) := by
      rw [own, hpending, finish, hpending]
      exact hg
    have hthrew {e : Thrown} (hpending : (h.onRead http a).pending = .threw e) :
        Settled (h.onRead http a).pending
          ((h.onRead http a).finish (h.own (h.onRead http a) (.read a) g)) := by
      rw [own, if_neg (by simp [hpending])]
      exact settled_finish_of_done (by rw [hpending]; rfl) (hg.mono plainRefs_sublist)
    cases hd : handling http h.lessenAll h.dataReq h.func a with
    | answer res =>
      rw [hd, follows] at hpending
      exact hwrite hpending
    | call f d reply =>
      rw [hd, follows] at hpending
      cases hanswer : replyAnswer http a.req reply with
      | ok res =>
        rw [hanswer] at hpending
        exact hwrite hpending
      | error e =>
        rw [hanswer] at hpending
        exact hthrew hpending
    | upgrade f =>
      rw [hd, follows] at hpending
      rw [own, hpending, finish, hpending]
      exact hg.make .stream
    | throw e =>
      rw [hd, follows] at hpending
      exact hthrew hpending
  | readError endOfStream =>
    obtain ⟨hp, rfl⟩ := hcase
    rw [hp] at hg
    exact settled_finish_of_done (by cases endOfStream <;> rfl) (hg.mono plainRefs_sublist)
  | written ok =>
    obtain ⟨close, hp, rfl⟩ := hcase
    rw [hp] at hg
    cases ok with
    | false => exact settled_finish_of_done rfl (hg.mono plainRefs_sublist)
    | true =>
      cases close with
      | true => exact settled_finish_of_done rfl (hg.mono plainRefs_sublist)
      | false => exact hg
  | accepted ok handler =>
    obtain ⟨hp, rfl⟩ := hcase
    rw [hp] at hg
    refine settled_finish (onAcceptWs_inSession h ok handler) ?_
    cases ok with
    | false => exact hg.mono acceptRefs_sublist
    | true => exact (hg.make .subscriber).ownOps h handler.run.ops
  | message text payload run =>
    obtain ⟨hp, rfl⟩ := hcase
    rw [hp] at hg
    refine settled_finish (onReadWs_inSession h text payload run) ?_
    rw [own]
    split
    · exact hg.ownOps h run.ops
    · exact hg
  | wsError run =>
    obtain ⟨hp, rfl⟩ := hcase
    rw [hp] at hg
    refine settled_finish (onReadWsError_inSession h run) ?_
    have hresets : ∀ {g : Owners}, Tied sessionRefs g → Tied sessionRefs
        ((g.reset (.inr .server) .subscriber).reset (.inr .server) .stream) :=
      fun hg => (hg.reset (by decide)).reset (by decide)
    rw [own]
    split
    · dsimp only
      split
      · exact hg.ownOps h run.ops
      · exact hresets (hg.ownOps h run.ops)
    · exact hresets hg
  | user op =>
    obtain ⟨hp, rfl⟩ := hcase
    rw [hp] at hg
    obtain ⟨h', heq, hpending, _⟩ := h.userOp_safe op
    rw [heq]
    exact settled_finish (.inl (hpending.trans hp)) (hg.ownOp h op)

/-- After a session nothing of it is left, whatever the user tries later. -/
theorem run_released (http : Http ρ) {lessenAll : Bool} {acts : List (OwnedAction F A)}
    {o : Owned (HttpServer ρ F A)}
    (hrun : (ownedStep http).run (ownedInit lessenAll) acts = some o)
    (hdone : o.conn.pending.done = true) : o.Released := by
  have hdone_settled : ∀ {p : Pending} {g : Owners}, p.done = true → Settled p g →
      g.Sound ∧ g.live = [] := by
    intro p g hp hg
    cases p with
    | closed | failed | threw => exact hg
    | read | write | accept | readWs | nullDeref => cases hp
  have hinit : Settled (ownedInit lessenAll : Owned (HttpServer ρ F A)).conn.pending
      (ownedInit lessenAll : Owned (HttpServer ρ F A)).owners :=
    ⟨⟨by simp [ownedInit], by simp [ownedInit]⟩, List.Sublist.refl _, by simp [ownedInit]⟩
  have hkeeps : ∀ (o : Owned (HttpServer ρ F A)) a t, Settled o.conn.pending o.owners ∧
      o.reached = [] → ownedStep http o a = some t →
      Settled t.conn.pending t.owners ∧ t.reached = [] := by
    rintro o (act | op) t ⟨hsettled, hreached⟩ hstep
    · obtain ⟨u, hu, rfl⟩ := Option.map_eq_some_iff.mp hstep
      exact ⟨step_settled http hsettled hu, hreached⟩
    · -- the weak pointer is empty by now
      simp only [ownedStep] at hstep
      split at hstep
      · next hdone =>
        obtain ⟨_, hlive⟩ := hdone_settled hdone hsettled
        obtain rfl : o = t := by simpa [Owned.late, hlive] using hstep
        exact ⟨hsettled, hreached⟩
      · cases hstep
  obtain ⟨hsettled, hreached⟩ := Machine.run_invariant hkeeps ⟨hinit, rfl⟩ hrun
  obtain ⟨hsound, hlive⟩ := hdone_settled hdone hsettled
  refine ⟨fun e he => ?_, by simp [hlive], hreached⟩
  have hmem := hsound.target e he
  rw [hlive] at hmem
  cases hmem

end HttpServer

end Async

namespace Coro

/-- The session has returned, or answers after an exception before it does. -/
def Pending.done : Pending → Bool
  | .ended | .write true | .threw _ => true
  | .read | .write false | .accept | .readWs => false

namespace Session

/-- One call on the subscriber; `ws.reset()` in `close`. -/
def ownOp (s : Session ρ F A) (op : UserOp) (g : Owners) : Owners :=
  g.locked fun g =>
    match op with
    | .stop closes => if s.closeWs && closes then g.reset (.inr .subscriber) .stream else g
    | .getPublisher _ | .setSubscriber _ | .setDeleter _ => g

def ownOps : Session ρ F A → List UserOp → Owners → Owners
  | _, [], g => g
  | s, op :: ops, g => ownOps (s.userOp op) ops (s.ownOp op g)

/-- The locals `wsSub` and `ws` go, by their `reset` or with the `try` block. -/
def unwind (g : Owners) : Owners :=
  (g.reset (.inl .frame) .subscriber).reset (.inl .frame) .stream

/-- User code runs inside the `try` block. -/
def ownUser (s : Session ρ F A) (run : UserRun) (g : Owners) : Owners :=
  if run.thrown.isSome then unwind (s.ownOps run.ops g) else s.ownOps run.ops g

/-- What the session does with the owners after `act`; `t` is the state after it. -/
def own (s t : Session ρ F A) (act : Action F A) (g : Owners) : Owners :=
  match act with
  | .read _ =>
    if t.pending = .accept then (g.make (.inl .frame) .stream).make (.inl .frame) .subscriber
    else g
  | .accepted ok handler =>
    if ok then
      -- the captures of `close`, then that of `publisher`
      let g := g.copy (.inr .subscriber) .stream
      let g := g.copy (.inr .subscriber) .subscriber
      let g := g.copy (.inr .subscriber) .stream
      { s with closeWs := true }.ownUser handler.run g
    else unwind g
  | .message text _ run =>
    if s.wsSub.any WsSubscriber.subscriber && text then s.ownUser run g else g
  | .wsError run =>
    unwind (if s.wsSub.any WsSubscriber.deleter then s.ownOps run.ops g else g)
  | .user op => s.ownOp op g
  | .readError _ | .written _ => g

def ownedStep (http : Http ρ) : Machine (Owned (Session ρ F A)) (OwnedAction F A) :=
  fun o a =>
    match a with
    | .conn act => (step http o.conn act).map fun t =>
      { o with conn := t, owners := o.conn.own t act o.owners }
    | .late op => if o.conn.pending.done then some (o.late userOp ownOp op) else none

/-- A new session: its frame has no references yet. -/
def ownedInit (lessenAll : Bool) : Owned (Session ρ F A) where
  conn := init lessenAll
  owners := ⟨[], []⟩
  reached := []

theorem locked_selfHeld {g : Owners} (hg : g.SelfHeld .subscriber) {f : Owners → Owners}
    (hf : ∀ {g : Owners}, g.SelfHeld .subscriber → (f g).SelfHeld .subscriber) :
    (g.locked f).SelfHeld .subscriber := by
  rw [Owners.locked]
  split
  · exact (hf (hg.copy _ _)).reset (by decide)
  · exact hg

/-- The subscriber that holds itself outlives every call. -/
theorem ownOp_selfHeld (s : Session ρ F A) (op : UserOp) {g : Owners}
    (hg : g.SelfHeld .subscriber) : (s.ownOp op g).SelfHeld .subscriber := by
  refine locked_selfHeld hg fun {g} hg => ?_
  cases op with
  | stop closes =>
    dsimp only
    split
    · exact hg.reset (by decide)
    · exact hg
  | getPublisher | setSubscriber | setDeleter => exact hg

theorem ownOps_selfHeld (s : Session ρ F A) (ops : List UserOp) {g : Owners}
    (hg : g.SelfHeld .subscriber) : (s.ownOps ops g).SelfHeld .subscriber := by
  induction ops generalizing s g with
  | nil => exact hg
  | cons op ops ih => exact ih _ (s.ownOp_selfHeld op hg)

theorem unwind_selfHeld {g : Owners} (hg : g.SelfHeld .subscriber) :
    (unwind g).SelfHeld .subscriber := (hg.reset (by decide)).reset (by decide)

theorem ownUser_selfHeld (s : Session ρ F A) (run : UserRun) {g : Owners}
    (hg : g.SelfHeld .subscriber) : (s.ownUser run g).SelfHeld .subscriber := by
  rw [ownUser]
  split
  · exact unwind_selfHeld (s.ownOps_selfHeld run.ops hg)
  · exact s.ownOps_selfHeld run.ops hg

/-- No step of the session destroys it. -/
theorem own_selfHeld (s t : Session ρ F A) (act : Action F A) {g : Owners}
    (hg : g.SelfHeld .subscriber) : (s.own t act g).SelfHeld .subscriber := by
  cases act with
  | read a =>
    rw [own]
    split
    · exact ⟨List.mem_cons_self, List.mem_cons_of_mem _ (List.mem_cons_of_mem _ hg.2)⟩
    · exact hg
  | readError | written => exact hg
  | accepted ok handler =>
    cases ok with
    | false => exact unwind_selfHeld hg
    | true => exact ownUser_selfHeld _ _ (((hg.copy _ _).copy _ _).copy _ _)
  | message text payload run =>
    rw [own]
    split
    · exact s.ownUser_selfHeld run hg
    · exact hg
  | wsError run =>
    rw [own]
    split
    · exact unwind_selfHeld (s.ownOps_selfHeld run.ops hg)
    · exact unwind_selfHeld hg
  | user op => exact s.ownOp_selfHeld op hg

/-- The captures of `close` make the subscriber hold itself. -/
theorem accepted_selfHeld (s t : Session ρ F A) (handler : WsHandlerRun A) {g : Owners}
    (hg : .subscriber ∈ g.live) : (s.own t (.accepted true handler) g).SelfHeld .subscriber := by
  refine ownUser_selfHeld _ _ ?_
  exact ⟨hg, List.mem_cons_of_mem _ List.mem_cons_self⟩

/-- The subscriber is made before the handshake, and holds itself when that has completed. -/
structure Made (o : Owned (Session ρ F A)) : Prop where
  accept : o.conn.pending = .accept → .subscriber ∈ o.owners.live
  readWs : o.conn.pending = .readWs → o.owners.SelfHeld .subscriber

theorem Made.of_selfHeld {o : Owned (Session ρ F A)} (h : o.owners.SelfHeld .subscriber) :
    Made o := ⟨fun _ => h.1, fun _ => h⟩

theorem Made.of_pending {o : Owned (Session ρ F A)} (haccept : o.conn.pending ≠ .accept)
    (hread : o.conn.pending ≠ .readWs) : Made o :=
  ⟨fun h => absurd h haccept, fun h => absurd h hread⟩

theorem step_made (http : Http ρ) {s t : Session ρ F A} {act : Action F A} {g : Owners}
    {reached : List Str} (hmade : Made ⟨s, g, reached⟩) (hstep : step http s act = some t) :
    Made ⟨t, s.own t act g, reached⟩ := by
  have hcase := step_eq_some hstep
  cases act with
  | read a =>
    obtain ⟨_, rfl⟩ := hcase
    refine ⟨fun haccept => ?_, fun hread => ?_⟩
    · rw [own, if_pos haccept]
      exact List.mem_cons_self
    · have hpending := (s.onRead_follows http a).2.1
      exact absurd (hpending.symm.trans hread) (follows_ne_readWs http a.req _)
  | readError endOfStream =>
    obtain ⟨_, rfl⟩ := hcase
    refine .of_pending ?_ ?_ <;> simp
  | written ok =>
    obtain ⟨returns, _, rfl⟩ := hcase
    obtain ⟨pending, hp, heq⟩ := s.onWrite_eq returns ok
    rw [heq]
    rcases hp with rfl | rfl
    · refine .of_pending ?_ ?_ <;> simp
    · refine .of_pending ?_ ?_ <;> simp
  | accepted ok handler =>
    obtain ⟨hp, rfl⟩ := hcase
    cases ok with
    | false =>
      have hover : (s.onAcceptWs http false handler).Over :=
        answer_over http s (http.thrownAnswer s.req (.exception "accept".toList))
      rcases hover with h | h | ⟨e, h⟩
      all_goals exact .of_pending (by simp [h]) (by simp [h])
    | true => exact .of_selfHeld (accepted_selfHeld s (s.onAcceptWs http true handler) handler
        (hmade.accept hp))
  | message | wsError | user => exact .of_selfHeld (own_selfHeld s t _ (hmade.readWs hcase.1))

theorem late_selfHeld (o : Owned (Session ρ F A)) (op : UserOp)
    (h : o.owners.SelfHeld .subscriber) :
    (o.late userOp ownOp op).owners.SelfHeld .subscriber := by
  rw [Owned.late, if_pos h.1]
  exact ownOp_selfHeld _ op h

theorem ownedStep_made (http : Http ρ) {o t : Owned (Session ρ F A)} {a : OwnedAction F A}
    (hmade : Made o) (hstep : ownedStep http o a = some t) : Made t := by
  cases a with
  | conn act =>
    obtain ⟨u, hu, rfl⟩ := Option.map_eq_some_iff.mp hstep
    exact step_made http hmade hu
  | late op =>
    simp only [ownedStep] at hstep
    split at hstep
    · next hdone =>
      obtain rfl := Option.some.inj hstep
      have hpending : (o.late userOp ownOp op).conn.pending = o.conn.pending := by
        rw [Owned.late]
        split
        · exact (userOp_log o.conn op).1
        · rfl
      refine .of_pending ?_ ?_ <;>
        · rw [hpending]
          intro h
          rw [h] at hdone
          cases hdone
    · cases hstep

/-- From the handshake on the subscriber holds itself. -/
theorem run_selfHeld (http : Http ρ) {lessenAll : Bool} {acts : List (OwnedAction F A)}
    {handler : WsHandlerRun A} {o : Owned (Session ρ F A)}
    (hrun : (ownedStep http).run (ownedInit lessenAll) acts = some o)
    (hacc : .conn (.accepted true handler) ∈ acts) : o.owners.SelfHeld .subscriber := by
  obtain ⟨pre, post, rfl⟩ := List.append_of_mem hacc
  rw [Machine.run_append, Option.bind_eq_some_iff] at hrun
  obtain ⟨u, hu, hrun⟩ := hrun
  obtain ⟨v, hv, hrun⟩ := Machine.run_cons_eq_some.mp hrun
  have hinit : Made (ownedInit lessenAll : Owned (Session ρ F A)) := by
    refine .of_pending ?_ ?_ <;> simp [ownedInit, init]
  have hmade : Made u :=
    Machine.run_invariant (fun o a t hmade hstep => ownedStep_made http hmade hstep) hinit hu
  obtain ⟨t, ht, rfl⟩ := Option.map_eq_some_iff.mp hv
  have hp : u.conn.pending = .accept := (step_eq_some ht).1
  refine Machine.run_invariant (I := fun o : Owned (Session ρ F A) =>
    o.owners.SelfHeld .subscriber) ?_ (accepted_selfHeld u.conn t handler (hmade.accept hp)) hrun
  rintro o (act | op) t hself hstep
  · obtain ⟨w, _, rfl⟩ := Option.map_eq_some_iff.mp hstep
    exact own_selfHeld o.conn w act hself
  · simp only [ownedStep] at hstep
    split at hstep
    · obtain rfl := Option.some.inj hstep
      exact late_selfHeld o op hself
    · cases hstep

end Session

end Coro

/-- When a session has come to its end, nothing owns its subscriber any more in the asynchronous
server. In the coroutine server the subscriber owns itself, whatever the session and the
user did, and what is published later reaches the stream. -/
theorem released_iff (http : Http ρ) (lessenAll : Bool) (acts : List (OwnedAction F A))
    {handler : WsHandlerRun A} (hacc : .conn (.accepted true handler) ∈ acts) :
    (∀ o,
      (Async.HttpServer.ownedStep http).run (Async.HttpServer.ownedInit lessenAll) acts = some o →
      o.conn.pending.done = true → o.Released) ∧
    (∀ o, (Coro.Session.ownedStep http).run (Coro.Session.ownedInit lessenAll) acts = some o →
      o.conn.pending.done = true → ¬ o.Released ∧ ∀ str, ∃ o',
        Coro.Session.ownedStep http o (.late (.getPublisher str)) = some o' ∧
          o'.reached = o.reached ++ [str]) := by
  refine ⟨fun o hrun hdone => Async.HttpServer.run_released http hrun hdone,
    fun o hrun hdone => ?_⟩
  have hself := Coro.Session.run_selfHeld http hrun hacc
  refine ⟨fun h => h.lock hself.1, fun str => ?_⟩
  have hlate : Coro.Session.ownedStep http o (.late (.getPublisher str)) =
      some (o.late Coro.Session.userOp Coro.Session.ownOp (.getPublisher str)) := if_pos hdone
  refine ⟨_, hlate, ?_⟩
  rw [Owned.late, if_pos hself.1]
  rfl

/-- A session with one message, closed by the peer, and a lock after it. -/
def closedSession : List (OwnedAction Nat Unit) :=
  [.conn (.read upgradeA), .conn (.accepted true setsBoth),
    .conn (.message true "hi".toList ⟨[.getPublisher "hi".toList], none⟩),
    .conn (.wsError ⟨[], none⟩)]

theorem released_iff_closed :
    (∃ o, (Async.HttpServer.ownedStep Message.http).run (Async.HttpServer.ownedInit false)
      closedSession = some o ∧ o.Released) ∧
    ∃ o, (Coro.Session.ownedStep Message.http).run (Coro.Session.ownedInit false)
      closedSession = some o ∧ ¬ o.Released := by
  have hacc : .conn (.accepted true setsBoth) ∈ closedSession := by simp [closedSession]
  obtain ⟨hasync, hcoro⟩ := released_iff Message.http false closedSession hacc
  exact ⟨⟨_, rfl, hasync _ rfl rfl⟩, _, rfl, (hcoro _ rfl rfl).1⟩

/-- In the coroutine server a lock after the session succeeds, and what is published through it
reaches the stream. -/
theorem leaked_subscriber :
    ∃ o, (Coro.Session.ownedStep Message.http).run (Coro.Session.ownedInit false)
        (closedSession ++ [.late (.getPublisher "late".toList)]) = some o ∧
      o.conn.pending = .ended ∧ ⟨.inr .subscriber, .subscriber⟩ ∈ o.owners.refs ∧
      .subscriber ∈ o.owners.live ∧ o.reached = ["late".toList] :=
  ⟨_, rfl, rfl, by decide, by decide, rfl⟩

end FHT.Server
