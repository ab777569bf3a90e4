import FHT.Server.Release

/-!
# Delivery of WebSocket messages

The coroutine server reads every message into a new buffer. The asynchronous server reads into
`m_buffer`, also used by the HTTP reads, and never consumes it, so that the subscriber is passed
what the buffer held before together with the message.

## Main results

- `delivery_exact_iff` — when each server passes on exactly the text messages
-/

namespace FHT.Server

variable {ρ F A : Type}

/-- A complete message, with what other threads do to the `wsSubscriber` since the message before,
and what the subscriber does if it is called for this one. -/
structure WsMessage where
  before : List UserOp
  text : Bool
  payload : Str
  run : UserRun

def WsMessage.action (msg : WsMessage) : Action F A := .message msg.text msg.payload msg.run

def WsMessage.actions (msg : WsMessage) : List (Action F A) :=
  msg.before.map .user ++ [msg.action]

/-- The payloads of the text messages. -/
def texts (msgs : List WsMessage) : List Str := (msgs.filter WsMessage.text).map WsMessage.payload

/-- All payloads, one after the other. -/
def payloads (msgs : List WsMessage) : Str := (msgs.map WsMessage.payload).flatten

theorem texts_cons (msg : WsMessage) (msgs : List WsMessage) :
    texts (msg :: msgs) = (if msg.text then [msg.payload] else []) ++ texts msgs := by
  unfold texts
  cases hm : msg.text <;> simp [hm]

/-- The operation neither stops the connection nor takes the subscriber away. -/
def UserOp.Quiet (op : UserOp) : Prop := (∀ closes, op ≠ .stop closes) ∧ op ≠ .setSubscriber false

/-- Nobody stops the connection, takes the subscriber away or throws. -/
structure WsMessage.Quiet (msg : WsMessage) : Prop where
  before : ∀ op ∈ msg.before, op.Quiet
  ops : ∀ op ∈ msg.run.ops, op.Quiet
  thrown : msg.run.thrown = none

theorem delivered_append (log log' : List (Event ρ F A)) :
    delivered (log ++ log') = delivered log ++ delivered log' := List.filterMap_append ..

/-- From `s`, the messages are read one after the other, and the subscriber is called once for
each text, in order, with its payload. -/
def DeliversExactly {σ : Type} (m : Machine σ (Action F A)) (log : σ → List (Event ρ F A))
    (s : σ) (msgs : List WsMessage) : Prop :=
  ∃ t, m.run s (msgs.flatMap WsMessage.actions) = some t ∧
    delivered (log t) = delivered (log s) ++ texts msgs

namespace Async.HttpServer

/-- An accepted connection with a subscriber set, waiting for a message. -/
structure Listening (h : HttpServer ρ F A) : Prop where
  pending : h.pending = .readWs
  ws : h.ws = true
  subscriber : ∃ w, h.wsSub = some w ∧ w.subscriber = true

theorem userOp_quiet {h : HttpServer ρ F A} (hl : h.Listening) {op : UserOp} (hop : op.Quiet) :
    ∃ h', h.userOp op = some h' ∧ h'.Listening ∧ h'.buffer = h.buffer ∧
      delivered h'.log = delivered h.log := by
  have hws := hl.ws
  obtain ⟨w, hw, hsubscriber⟩ := hl.subscriber
  cases op with
  | stop closes => exact absurd rfl (hop.1 closes)
  | getPublisher str =>
    refine ⟨h.record (.published str), by simp [userOp, publisher, useWs, hws], ?_, rfl, ?_⟩
    · exact ⟨hl.pending, hl.ws, hl.subscriber⟩
    · rw [record, delivered_append]
      exact List.append_nil _
  | setSubscriber functor =>
    have hfunctor : functor = true := by
      cases functor
      · exact absurd rfl hop.2
      · rfl
    exact ⟨_, rfl, ⟨hl.pending, hl.ws, { w with subscriber := functor }, by rw [hw]; rfl, hfunctor⟩,
      rfl, rfl⟩
  | setDeleter functor =>
    exact ⟨_, rfl, ⟨hl.pending, hl.ws, { w with deleter := functor }, by rw [hw]; rfl, hsubscriber⟩,
      rfl, rfl⟩

theorem userOps_quiet {h : HttpServer ρ F A} (hl : h.Listening) {ops : List UserOp}
    (hops : ∀ op ∈ ops, op.Quiet) :
    ∃ h', h.userOps ops = some h' ∧ h'.Listening ∧ h'.buffer = h.buffer ∧
      delivered h'.log = delivered h.log := by
  induction ops generalizing h with
  | nil => exact ⟨h, rfl, hl, rfl, rfl⟩
  | cons op ops ih =>
    obtain ⟨hop, hrest⟩ := List.forall_mem_cons.mp hops
    obtain ⟨h₁, heq, hl₁, hbuf₁, hdel₁⟩ := userOp_quiet hl hop
    obtain ⟨h₂, hrun, hl₂, hbuf₂, hdel₂⟩ := ih hl₁ hrest
    refine ⟨h₂, ?_, hl₂, hbuf₂.trans hbuf₁, hdel₂.trans hdel₁⟩
    rw [userOps, List.foldlM_cons, heq]
    exact hrun

/-- What other threads do between two messages. -/
theorem run_users (http : Http ρ) {h : HttpServer ρ F A} (hl : h.Listening) {ops : List UserOp}
    (hops : ∀ op ∈ ops, op.Quiet) :
    ∃ h', (step http).run h (ops.map .user) = some h' ∧ h'.Listening ∧ h'.buffer = h.buffer ∧
      delivered h'.log = delivered h.log := by
  induction ops generalizing h with
  | nil => exact ⟨h, rfl, hl, rfl, rfl⟩
  | cons op ops ih =>
    obtain ⟨hop, hrest⟩ := List.forall_mem_cons.mp hops
    obtain ⟨h₁, heq, hl₁, hbuf₁, hdel₁⟩ := userOp_quiet hl hop
    obtain ⟨h₂, hrun, hl₂, hbuf₂, hdel₂⟩ := ih hl₁ hrest
    have hstep : step http h (.user op) = some h₁ := by
      simp [step, hl.pending, heq, orCrash]
    exact ⟨h₂, Machine.run_cons_eq_some.mpr ⟨h₁, hstep, hrun⟩, hl₂, hbuf₂.trans hbuf₁,
      hdel₂.trans hdel₁⟩

/-- A message is appended to the buffer, and a text is passed on as the whole buffer. -/
theorem step_message (http : Http ρ) {h : HttpServer ρ F A} (hl : h.Listening)
    {msg : WsMessage} (hquiet : msg.Quiet) :
    ∃ t, step http h msg.action = some t ∧ t.Listening ∧ t.buffer = h.buffer ++ msg.payload ∧
      delivered t.log = delivered h.log ++
        if msg.text then [h.buffer ++ msg.payload] else [] := by
  obtain ⟨w, hw, hsubscriber⟩ := hl.subscriber
  have hws := hl.ws
  have hread : h.onReadWs msg.text msg.payload msg.run =
      if msg.text then
        ({ h with buffer := h.buffer ++ msg.payload }.record
          (.subscriber (h.buffer ++ msg.payload))).callUser msg.run doReadWs
      else { h with buffer := h.buffer ++ msg.payload }.doReadWs := by
    simp [onReadWs, hw, hsubscriber, useWs, hws]
  have hstep : step http h msg.action =
      some (h.orCrash (h.onReadWs msg.text msg.payload msg.run)) := by
    simp [step, hl.pending, WsMessage.action]
  rw [hstep, hread]
  cases msg.text with
  | false =>
    refine ⟨{ h with buffer := h.buffer ++ msg.payload, pending := .readWs }, ?_, ?_, rfl, ?_⟩
    · simp [doReadWs, useWs, hws, orCrash]
    · exact ⟨rfl, hws, w, hw, hsubscriber⟩
    · simp
  | true =>
    -- the subscriber is called with the whole buffer, and what it does keeps the connection
    have hl' : ({ h with buffer := h.buffer ++ msg.payload }.record
        (.subscriber (h.buffer ++ msg.payload))).Listening := ⟨hl.pending, hws, w, hw, hsubscriber⟩
    obtain ⟨t, hops, hlt, hbuf, hdel⟩ := userOps_quiet hl' hquiet.ops
    refine ⟨{ t with pending := .readWs }, ?_, ⟨rfl, hlt.ws, hlt.subscriber⟩, hbuf, ?_⟩
    · simp [callUser, hops, hquiet.thrown, doReadWs, useWs, hlt.ws, orCrash]
    · refine hdel.trans ?_
      rw [record, delivered_append]
      rfl

theorem run_message (http : Http ρ) {h : HttpServer ρ F A} (hl : h.Listening)
    {msg : WsMessage} (hquiet : msg.Quiet) :
    ∃ t, (step http).run h msg.actions = some t ∧ t.Listening ∧
      t.buffer = h.buffer ++ msg.payload ∧
      delivered t.log = delivered h.log ++
        if msg.text then [h.buffer ++ msg.payload] else [] := by
  obtain ⟨u, hu, hlu, hbuf, hdel⟩ := run_users http hl hquiet.before
  obtain ⟨t, ht, hlt, hbuft, hdelt⟩ := step_message http hlu hquiet
  rw [hbuf] at hbuft hdelt
  rw [hdel] at hdelt
  exact ⟨t, Machine.run_concat_eq_some.mpr ⟨u, hu, ht⟩, hlt, hbuft, hdelt⟩

/-- What the subscriber is called with, where `buffer` is in the buffer before. -/
def deliveries (buffer : Str) : List WsMessage → List Str
  | [] => []
  | msg :: msgs =>
    (if msg.text then [buffer ++ msg.payload] else []) ++ deliveries (buffer ++ msg.payload) msgs

theorem run_messages (http : Http ρ) {h : HttpServer ρ F A} (hl : h.Listening)
    {msgs : List WsMessage} (hquiet : ∀ msg ∈ msgs, msg.Quiet) :
    ∃ t, (step http).run h (msgs.flatMap WsMessage.actions) = some t ∧
      delivered t.log = delivered h.log ++ deliveries h.buffer msgs := by
  induction msgs generalizing h with
  | nil => exact ⟨h, rfl, by simp [deliveries]⟩
  | cons msg msgs ih =>
    obtain ⟨hq, hrest⟩ := List.forall_mem_cons.mp hquiet
    obtain ⟨u, hu, hlu, hbuf, hdel⟩ := run_message http hl hq
    -- the rest is delivered behind a buffer that is longer by this payload
    obtain ⟨t, ht, hdelt⟩ := ih hlu hrest
    refine ⟨t, ?_, ?_⟩
    · rw [List.flatMap_cons, Machine.run_append, hu]
      exact ht
    · rw [hdelt, hdel, hbuf, deliveries, List.append_assoc]

/-- Before each text message the buffer is empty. -/
def EmptyBefore (buffer : Str) (msgs : List WsMessage) : Prop :=
  ∀ pre msg post, msgs = pre ++ msg :: post → msg.text → buffer ++ payloads pre = []

theorem emptyBefore_cons (buffer : Str) (msg : WsMessage) (msgs : List WsMessage) :
    EmptyBefore buffer (msg :: msgs) ↔
      (msg.text → buffer = []) ∧ EmptyBefore (buffer ++ msg.payload) msgs := by
  constructor
  · intro h
    refine ⟨fun ht => by simpa [payloads] using h [] msg msgs rfl ht, ?_⟩
    rintro pre m post rfl ht
    simpa [payloads] using h (msg :: pre) m post rfl ht
  · rintro ⟨hfirst, hrest⟩ pre m post heq ht
    cases pre with
    | nil =>
      obtain ⟨rfl, _⟩ := List.cons.inj heq
      simpa [payloads] using hfirst ht
    | cons p pre =>
      obtain ⟨rfl, rfl⟩ := List.cons.inj heq
      simpa [payloads] using hrest pre m post rfl ht

theorem deliveries_eq_texts_iff (buffer : Str) (msgs : List WsMessage) :
    deliveries buffer msgs = texts msgs ↔ EmptyBefore buffer msgs := by
  induction msgs generalizing buffer with
  | nil => simp [deliveries, texts, EmptyBefore]
  | cons msg msgs ih =>
    rw [emptyBefore_cons, deliveries, texts_cons, ← ih]
    cases msg.text with
    | false => simp
    | true => simp

theorem deliversExactly_iff (http : Http ρ) {h : HttpServer ρ F A} (hl : h.Listening)
    {msgs : List WsMessage} (hquiet : ∀ msg ∈ msgs, msg.Quiet) :
    DeliversExactly (step http) log h msgs ↔ EmptyBefore h.buffer msgs := by
  obtain ⟨t, ht, hdel⟩ := run_messages http hl hquiet
  rw [← deliveries_eq_texts_iff]
  constructor
  · rintro ⟨u, hu, hexact⟩
    obtain rfl : t = u := Option.some.inj (ht.symm.trans hu)
    exact List.append_cancel_left (hdel.symm.trans hexact)
  · intro heq
    exact ⟨t, ht, by rw [hdel, heq]⟩

end Async.HttpServer

namespace Coro.Session

/-- An accepted connection with a subscriber set, waiting for a message. -/
structure Listening (s : Session ρ F A) : Prop where
  pending : s.pending = .readWs
  subscriber : ∃ w, s.wsSub = some w ∧ w.subscriber = true

theorem userOp_quiet {s : Session ρ F A} (hl : s.Listening) {op : UserOp} (hop : op.Quiet) :
    (s.userOp op).Listening ∧ delivered (s.userOp op).log = delivered s.log := by
  obtain ⟨w, hw, hsubscriber⟩ := hl.subscriber
  cases op with
  | stop closes =>
    simp only [userOp]
    split
    · exact ⟨⟨hl.pending, hl.subscriber⟩, rfl⟩
    · exact ⟨hl, rfl⟩
  | getPublisher str =>
    refine ⟨⟨hl.pending, hl.subscriber⟩, ?_⟩
    rw [userOp, record, delivered_append]
    exact List.append_nil _
  | setSubscriber functor =>
    have hfunctor : functor = true := by
      cases functor
      · exact absurd rfl hop.2
      · rfl
    exact ⟨⟨hl.pending, { w with subscriber := functor }, by rw [userOp, hw]; rfl, hfunctor⟩, rfl⟩
  | setDeleter functor =>
    exact ⟨⟨hl.pending, { w with deleter := functor }, by rw [userOp, hw]; rfl, hsubscriber⟩, rfl⟩

theorem userOps_quiet {s : Session ρ F A} (hl : s.Listening) {ops : List UserOp}
    (hops : ∀ op ∈ ops, op.Quiet) :
    (s.userOps ops).Listening ∧ delivered (s.userOps ops).log = delivered s.log := by
  induction ops generalizing s with
  | nil => exact ⟨hl, rfl⟩
  | cons op ops ih =>
    obtain ⟨hop, hrest⟩ := List.forall_mem_cons.mp hops
    obtain ⟨hl₁, hdel₁⟩ := userOp_quiet hl hop
    obtain ⟨hl₂, hdel₂⟩ := ih hl₁ hrest
    exact ⟨hl₂, hdel₂.trans hdel₁⟩

theorem run_users (http : Http ρ) {s : Session ρ F A} (hl : s.Listening) {ops : List UserOp}
    (hops : ∀ op ∈ ops, op.Quiet) :
    (step http).run s (ops.map .user) = some (s.userOps ops) := by
  induction ops generalizing s with
  | nil => rfl
  | cons op ops ih =>
    obtain ⟨hop, hrest⟩ := List.forall_mem_cons.mp hops
    have hstep : step http s (.user op) = some (s.userOp op) := by simp [step, hl.pending]
    exact Machine.run_cons_eq_some.mpr ⟨_, hstep, ih (userOp_quiet hl hop).1 hrest⟩

/-- A text message is passed on as it is, a binary one is not. -/
theorem step_message (http : Http ρ) {s : Session ρ F A} (hl : s.Listening)
    {msg : WsMessage} (hquiet : msg.Quiet) :
    ∃ t, step http s msg.action = some t ∧ t.Listening ∧
      delivered t.log = delivered s.log ++ if msg.text then [msg.payload] else [] := by
  obtain ⟨w, hw, hsubscriber⟩ := hl.subscriber
  have hstep : step http s msg.action =
      some (s.onReadWs http msg.text msg.payload msg.run) := by
    simp [step, hl.pending, WsMessage.action]
  rw [hstep]
  cases msg.text with
  | false => exact ⟨s, by simp [onReadWs], hl, by simp⟩
  | true =>
    have hl' : (s.record (.subscriber msg.payload)).Listening := ⟨hl.pending, w, hw, hsubscriber⟩
    obtain ⟨hlt, hdel⟩ := userOps_quiet hl' hquiet.ops
    refine ⟨_, ?_, hlt, ?_⟩
    · simp [onReadWs, hw, hsubscriber, callUser, hquiet.thrown]
    · rw [hdel, record, delivered_append]
      rfl

theorem run_message (http : Http ρ) {s : Session ρ F A} (hl : s.Listening)
    {msg : WsMessage} (hquiet : msg.Quiet) :
    ∃ t, (step http).run s msg.actions = some t ∧ t.Listening ∧
      delivered t.log = delivered s.log ++ if msg.text then [msg.payload] else [] := by
  obtain ⟨hlu, hdel⟩ := userOps_quiet hl hquiet.before
  obtain ⟨t, ht, hlt, hdelt⟩ := step_message http hlu hquiet
  rw [hdel] at hdelt
  exact ⟨t, Machine.run_concat_eq_some.mpr ⟨_, run_users http hl hquiet.before, ht⟩, hlt, hdelt⟩

theorem deliversExactly (http : Http ρ) {s : Session ρ F A} (hl : s.Listening)
    {msgs : List WsMessage} (hquiet : ∀ msg ∈ msgs, msg.Quiet) :
    DeliversExactly (step http) log s msgs := by
  induction msgs generalizing s with
  | nil => exact ⟨s, rfl, by simp [texts]⟩
  | cons msg msgs ih =>
    obtain ⟨hq, hrest⟩ := List.forall_mem_cons.mp hquiet
    obtain ⟨u, hu, hlu, hdel⟩ := run_message http hl hq
    obtain ⟨t, ht, hdelt⟩ := ih hlu hrest
    refine ⟨t, ?_, ?_⟩
    · rw [List.flatMap_cons, Machine.run_append, hu]
      exact ht
    · rw [hdelt, hdel, texts_cons, List.append_assoc]

end Coro.Session

/-- On an accepted connection with a subscriber, without `stop` and without exceptions, whatever
else other threads do between the messages: the coroutine server passes on exactly the text
messages. The asynchronous server does exactly if
the buffer is empty before each of them. -/
theorem delivery_exact_iff (http : Http ρ) {msgs : List WsMessage}
    (hquiet : ∀ msg ∈ msgs, msg.Quiet) :
    (∀ s : Coro.Session ρ F A, s.Listening →
      DeliversExactly (Coro.Session.step http) Coro.Session.log s msgs) ∧
    ∀ h : Async.HttpServer ρ F A, h.Listening →
      (DeliversExactly (Async.HttpServer.step http) Async.HttpServer.log h msgs ↔
        Async.HttpServer.EmptyBefore h.buffer msgs) :=
  ⟨fun _ hl => Coro.Session.deliversExactly http hl hquiet,
    fun _ hl => Async.HttpServer.deliversExactly_iff http hl hquiet⟩

/-- A text message, for a subscriber that only returns. -/
def textMessage (before : List UserOp) (payload : Str) : WsMessage :=
  ⟨before, true, payload, ⟨[], none⟩⟩

/-- Before the second text another thread publishes one. -/
def twoTexts : List WsMessage :=
  [textMessage [] ['a'], textMessage [.getPublisher "c".toList] ['b']]

theorem delivery_exact_iff_two_texts :
    (∀ s : Coro.Session Message Nat Unit, s.Listening →
      DeliversExactly (Coro.Session.step Message.http) Coro.Session.log s twoTexts) ∧
    ∀ h : Async.HttpServer Message Nat Unit, h.Listening →
      (DeliversExactly (Async.HttpServer.step Message.http) Async.HttpServer.log h twoTexts ↔
        Async.HttpServer.EmptyBefore h.buffer twoTexts) :=
  delivery_exact_iff Message.http fun msg hmsg => by
    rcases List.mem_pair.mp hmsg with rfl | rfl
    · exact ⟨by simp [textMessage], by simp [textMessage], rfl⟩
    · exact ⟨by simp [textMessage, UserOp.Quiet], by simp [textMessage], rfl⟩

/-- The second of two texts reaches the subscriber with the first in front of it. -/
theorem second_text_with_first : ∃ h : Async.HttpServer Message Nat Unit,
    (Async.HttpServer.step Message.http).run (.init false)
      [.read upgradeA, .accepted true ⟨.empty, ⟨[.setSubscriber true], none⟩⟩] = some h ∧
    ¬ DeliversExactly (Async.HttpServer.step Message.http) Async.HttpServer.log h
      [textMessage [] ['a'], textMessage [] ['b']] := by
  refine ⟨_, rfl, ?_⟩
  rintro ⟨t, ht, hdel⟩
  obtain rfl := Option.some.inj ht
  revert hdel
  decide

end FHT.Server
