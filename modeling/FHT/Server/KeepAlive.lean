import FHT.Server.Handling

/-!
# Whether the connection stays open as announced

A response announces with `need_eof()` whether the connection ends behind it. The asynchronous
server decides by it in `on_write`, after every answer. The coroutine server tests it at the end
of its loop, but leaves the loop by `return` after every answer that is not made of what a
handler returned.

## Main results

- `exchanges_announced_iff` — which requests keep the announcement, in either server
-/

namespace FHT.Server

variable {ρ F A : Type}

/-- The two builds. -/
inductive Build
  | async
  | coro
  deriving DecidableEq

/-- A request that was read, with the handler that the server held before, the responses written
for it, and whether the server then reads the next request. -/
structure Exchange (ρ F A : Type) where
  left : Option F
  arrival : Arrival F A
  written : List ρ
  again : Bool

section Exchanges

variable {σ : Type} (m : Machine σ (Action F A)) (log : σ → List (Event ρ F A))
  (left : σ → Option F) (reading : σ → Bool)

/-- The requests come in one after another; what is written is written without an error. A
request that the server does not read is not in the list. -/
def exchangesFrom : σ → List (Arrival F A) → List (Exchange ρ F A)
  | _, [] => []
  | s, a :: as =>
    match m s (.read a) with
    | none => []
    | some t =>
      let u := (m t (.written true)).getD t
      ⟨left s, a, (responses (log u)).drop (responses (log s)).length, reading u⟩ ::
        exchangesFrom u as

/-- What holds of one exchange from a state with `I`, which the exchange keeps, holds of all. -/
theorem forall_mem_exchangesFrom {I : σ → Prop} {Q : Arrival F A → Prop}
    {P : Exchange ρ F A → Prop} (hclosed : ∀ s a, reading s = false → m s (.read a) = none)
    (hexchange : ∀ s a, I s → reading s = true → Q a → ∃ t u, m s (.read a) = some t ∧
      (m t (.written true)).getD t = u ∧ I u ∧
      P ⟨left s, a, (responses (log u)).drop (responses (log s)).length, reading u⟩)
    {s : σ} (hs : I s) {arrivals : List (Arrival F A)} (hQ : ∀ a ∈ arrivals, Q a) :
    ∀ e ∈ exchangesFrom m log left reading s arrivals, P e := by
  induction arrivals generalizing s with
  | nil => simp [exchangesFrom]
  | cons a as ih =>
    obtain ⟨ha, hrest⟩ := List.forall_mem_cons.mp hQ
    cases hreading : reading s with
    | false => simp [exchangesFrom, hclosed s a hreading]
    | true =>
      obtain ⟨t, u, ht, hu, hIu, hP⟩ := hexchange s a hs hreading ha
      simp only [exchangesFrom, ht, hu, List.forall_mem_cons]
      exact ⟨hP, ih hIu hrest⟩

end Exchanges

/-- The exchanges on a new connection. The `func` of a session is a local of one pass. -/
def exchanges (http : Http ρ) (lessenAll : Bool) (arrivals : List (Arrival F A)) :
    Build → List (Exchange ρ F A)
  | .async => exchangesFrom (Async.HttpServer.step http) Async.HttpServer.log
      Async.HttpServer.func (fun h => h.pending = .read) (.init lessenAll) arrivals
  | .coro => exchangesFrom (Coro.Session.step http) Coro.Session.log
      (fun _ => none) (fun s => s.pending = .read) (.init lessenAll) arrivals

/-- The request is answered by one response, and the next is read as that response says. -/
def Exchange.Announced (http : Http ρ) (e : Exchange ρ F A) : Prop :=
  ∃ res, e.written = [res] ∧ (e.again ↔ http.needEof res = false)

/-- The request asks for the end of the connection, or is `HEAD`, or reaches a handler that
returns. -/
def KeepsAnnouncement (lessenAll : Bool) (a : Arrival F A) : Prop :=
  a.req.keepAlive = false ∨ a.req.method = .head ∨
    a.req.method.dispatched ∧ Reached a.H a.req.isUpgrade (ownLocation lessenAll a.req.target) ∧
      ∃ send, a.reply.result = .ok send

theorem responses_append (log log' : List (Event ρ F A)) :
    responses (log ++ log') = responses log ++ responses log' := List.filterMap_append ..

theorem Handling.responses_events (http : Http ρ) (req : Request) (d : Handling ρ F A) :
    responses (d.events http req) = (d.response http req).toList := by
  rw [events, responses, List.filterMap_append, List.filterMap_map, List.filterMap_map]
  cases d.called <;> cases d.response http req <;> rfl

/-- A plain request is answered at once unless its handler throws a null pointer. -/
theorem exists_response (http : Http ρ) (lessenAll : Bool) (d : DataRequest A) (func : Option F)
    {a : Arrival F A} (hup : a.req.isUpgrade = false) (hremote : a.remote ≠ none)
    (hnull : ¬ ThrowsNull lessenAll func a) :
    ∃ res, (handling http lessenAll d func a).response http a.req = some res :=
  Option.ne_none_iff_exists'.mp fun hnone =>
    hnull ((response_eq_none_iff http lessenAll d func hup hremote).mp hnone)

/-- If it throws one, this is all that happens. -/
theorem exists_call_of_throwsNull (http : Http ρ) {lessenAll : Bool} (d : DataRequest A)
    {func : Option F} {a : Arrival F A} (hremote : a.remote ≠ none)
    (hnull : ThrowsNull lessenAll func a) :
    ∃ f d', handling http lessenAll d func a = .call f d' a.reply ∧
      replyAnswer http a.req a.reply = .error .nullString := by
  have hanswer := (replyAnswer_eq_error_iff http a.req a.reply _).mpr ⟨hnull.2, rfl⟩
  rcases handling_cases http lessenAll d func hnull.1.2.1 hremote with ⟨-, f, d', hd⟩ |
    ⟨hcalls, -⟩
  · exact ⟨f, d', hd, hanswer⟩
  · exact absurd hnull.1 hcalls

namespace Async.HttpServer

theorem follows_of_response {http : Http ρ} {req : Request} {d : Handling ρ F A} {res : ρ}
    (h : d.response http req = some res) : follows http req d = .write (http.needEof res) := by
  cases d with
  | answer =>
    obtain rfl := Option.some.inj h
    rfl
  | call f d reply =>
    rw [Handling.response] at h
    rw [follows]
    cases hanswer : replyAnswer http req reply with
    | ok res' =>
      rw [hanswer] at h
      obtain rfl := Option.some.inj h
      rfl
    | error e =>
      rw [hanswer] at h
      cases h
  | upgrade | throw => cases h

/-- Reading a request and writing its answer. -/
theorem step_read_written (http : Http ρ) {h : HttpServer ρ F A} (hread : h.pending = .read)
    {a : Arrival F A} (hup : a.req.isUpgrade = false) (hremote : a.remote ≠ none)
    (hnull : ¬ ThrowsNull h.lessenAll h.func a) :
    ∃ t u res, step http h (.read a) = some t ∧ step http t (.written true) = some u ∧
      responses u.log = responses h.log ++ [res] ∧ u.lessenAll = h.lessenAll ∧
      u.pending = if http.needEof res then .closed else .read := by
  obtain ⟨hlog, hpending, hlessen⟩ := onRead_follows http h a
  obtain ⟨res, hres⟩ := exists_response http h.lessenAll h.dataReq h.func hup hremote hnull
  have hwrite : (h.onRead http a).pending = .write (http.needEof res) := by
    rw [hpending, follows_of_response hres]
  refine ⟨h.onRead http a, (h.onRead http a).onWrite (http.needEof res) true, res, ?_, ?_, ?_, ?_⟩
  · simp [step, hread]
  · simp [step, hwrite]
  · have hkeep : ((h.onRead http a).onWrite (http.needEof res) true).log =
        (h.onRead http a).log := by
      rw [onWrite]
      cases http.needEof res <;> rfl
    rw [hkeep, hlog, responses_append, Handling.responses_events, hres]
    rfl
  · rw [onWrite]
    cases http.needEof res
    · exact ⟨hlessen, rfl⟩
    · exact ⟨hlessen, rfl⟩

/-- Reading a request whose handler throws a null pointer: the exception leaves `on_read`. -/
theorem step_read_null (http : Http ρ) {h : HttpServer ρ F A} (hread : h.pending = .read)
    {a : Arrival F A} (hremote : a.remote ≠ none) (hnull : ThrowsNull h.lessenAll h.func a) :
    ∃ t f d, step http h (.read a) = some t ∧ step http t (.written true) = none ∧
      t.log = h.log ++ [.handler f d] ∧
      handling http h.lessenAll h.dataReq h.func a = .call f d a.reply ∧
      t.lessenAll = h.lessenAll ∧ t.pending = .threw .nullString := by
  obtain ⟨hlog, hpending, hlessen⟩ := onRead_follows http h a
  obtain ⟨f, d, hd, hanswer⟩ := exists_call_of_throwsNull http h.dataReq hremote hnull
  rw [hd, follows, hanswer] at hpending
  refine ⟨h.onRead http a, f, d, by simp [step, hread], by simp [step, hpending], ?_, hd, hlessen,
    hpending⟩
  rw [hlog, hd, Handling.events, Handling.response, hanswer]
  rfl

theorem step_read_eq_none (http : Http ρ) {h : HttpServer ρ F A} (hp : h.pending ≠ .read)
    (a : Arrival F A) : step http h (.read a) = none :=
  Option.eq_none_iff_forall_ne_some.mpr fun _ ht => hp (step_eq_some ht).1

/-- In the asynchronous server every exchange is as announced, unless no answer can be put
together. -/
theorem exchange_announced_iff (http : Http ρ) (h : HttpServer ρ F A)
    {arrivals : List (Arrival F A)}
    (harrivals : ∀ a ∈ arrivals, a.req.isUpgrade = false ∧ a.remote ≠ none) :
    ∀ e ∈ exchangesFrom (step http) log func (fun h => h.pending = .read) h arrivals,
      (e.Announced http ↔ ¬ ThrowsNull h.lessenAll e.left e.arrival) := by
  refine forall_mem_exchangesFrom (step http) log func _ (I := fun t => t.lessenAll = h.lessenAll)
    ?_ ?_ rfl harrivals
  · exact fun t a hp => step_read_eq_none http (of_decide_eq_false hp) a
  · rintro t a hlessen hp ⟨hup, hremote⟩
    by_cases hnull : ThrowsNull t.lessenAll t.func a
    · obtain ⟨u, f, d, hu, hwritten, hlog, -, hkeep, hpending⟩ :=
        step_read_null http (of_decide_eq_true hp) hremote hnull
      refine ⟨u, u, hu, by rw [hwritten]; rfl, hkeep.trans hlessen, ?_⟩
      refine iff_of_false ?_ (not_not.mpr (hlessen ▸ hnull))
      rintro ⟨res, hres, -⟩
      simp [hlog, responses] at hres
    · obtain ⟨u, v, res, hu, hv, hres, hkeep, hpending⟩ :=
        step_read_written http (of_decide_eq_true hp) hup hremote hnull
      refine ⟨u, v, hu, by rw [hv]; rfl, hkeep.trans hlessen, iff_of_true ?_ (hlessen ▸ hnull)⟩
      refine ⟨res, by simp [hres], ?_⟩
      rw [hpending]
      cases http.needEof res <;> simp

end Async.HttpServer

namespace Coro.Session

/-- Whether the answer is written in a `return`. -/
def returns : Handling ρ F A → Bool
  | .answer _ | .upgrade _ | .throw _ => true
  | .call _ _ reply => reply.throws

theorem follows_of_response {http : Http ρ} {req : Request} {d : Handling ρ F A} {res : ρ}
    (h : d.response http req = some res) : follows http req d = .write (returns d) := by
  cases d with
  | answer => rfl
  | call f d reply =>
    rw [Handling.response] at h
    rw [follows]
    cases hanswer : replyAnswer http req reply with
    | ok res' => rfl
    | error e =>
      rw [hanswer] at h
      cases h
  | upgrade | throw => cases h

/-- An answer that keeps the connection open is not written in a `return` exactly if the
request keeps the announcement. -/
theorem keepsAnnouncement_iff {http : Http ρ} (hlaw : http.Lawful) (lessenAll : Bool)
    {a : Arrival F A} (hup : a.req.isUpgrade = false) (hremote : a.remote ≠ none) {res : ρ}
    (hres : (handling http lessenAll .empty none a).response http a.req = some res) :
    (http.needEof res = false → returns (handling http lessenAll .empty none a) = false) ↔
      KeepsAnnouncement lessenAll a := by
  obtain ⟨info, hinfo⟩ := Option.ne_none_iff_exists'.mp hremote
  rw [KeepsAnnouncement]
  unfold handling at hres ⊢
  rw [hinfo] at hres ⊢
  cases hm : a.req.method.dispatched with
  | false =>
    simp only [hm, Bool.false_eq_true, if_false] at hres ⊢
    by_cases hhead : a.req.method = .head
    · simp only [hhead, if_true, Handling.response, Option.some.injEq] at hres ⊢
      subst hres
      simp [hlaw.needEof_headAnswer]
    · simp only [hhead, if_false, Handling.response, Option.some.injEq] at hres ⊢
      subst hres
      simp [Http.badRequest, hlaw.needEof_errorAnswer, returns]
  | true =>
    have hhead : a.req.method ≠ .head := by
      rintro hhead
      rw [hhead] at hm
      cases hm
    simp only [hm, if_true, routing, hup] at hres ⊢
    by_cases hL : ownLocation lessenAll a.req.target = []
    · simp only [hL, if_true, Handling.response, Option.some.injEq] at hres ⊢
      subst hres
      simp [Http.notFound, hlaw.needEof_errorAnswer, returns, hhead, not_reached_nil]
    · simp only [hL, if_false] at hres ⊢
      cases hs : select a.H false (ownLocation lessenAll a.req.target)
          (ownLocation lessenAll a.req.target).length with
      | none =>
        have hnot := (select_eq_none_iff_not_reached a.H false _).mp hs
        simp only [hs, routed, Handling.response, Option.some.injEq] at hres ⊢
        subst hres
        simp [Http.notFound, hlaw.needEof_errorAnswer, returns, hhead, hnot]
      | some p =>
        have hreached := reached_of_select a.H false hs
        simp only [hs, routed, Bool.false_eq_true, if_false, Handling.response] at hres ⊢
        rw [replyAnswer] at hres
        -- only what a handler returns is written without a `return`
        cases hreply : a.reply.result with
        | ok send => simp [returns, Reply.throws, hreply, hreached]
        | error e =>
          simp only [hreply] at hres
          cases hthrown : http.thrownAnswer a.req e with
          | error e' => simp [hthrown, Except.toOption] at hres
          | ok res' =>
            obtain rfl : res' = res := by simpa [hthrown, Except.toOption] using hres
            simp [returns, Reply.throws, hreply, hlaw.needEof_thrownAnswer hthrown, hhead]

/-- Reading a request and writing its answer. -/
theorem step_read_written (http : Http ρ) {s : Session ρ F A} (hread : s.pending = .read)
    {a : Arrival F A} (hup : a.req.isUpgrade = false) (hremote : a.remote ≠ none)
    (hnull : ¬ ThrowsNull s.lessenAll none a) :
    ∃ t u res, step http s (.read a) = some t ∧ step http t (.written true) = some u ∧
      (handling http s.lessenAll .empty none a).response http a.req = some res ∧
      responses u.log = responses s.log ++ [res] ∧ u.lessenAll = s.lessenAll ∧
      (u.pending = .read ↔ http.needEof res = false ∧
        returns (handling http s.lessenAll .empty none a) = false) := by
  obtain ⟨hlog, hpending, hlessen, hclose⟩ := onRead_follows http s a
  obtain ⟨res, hres⟩ := exists_response http s.lessenAll .empty none hup hremote hnull
  have hclose := hclose res hres
  have hwrite : (s.onRead http a).pending =
      .write (returns (handling http s.lessenAll .empty none a)) := by
    rw [hpending, follows_of_response hres]
  refine ⟨s.onRead http a,
    (s.onRead http a).onWrite (returns (handling http s.lessenAll .empty none a)) true,
    res, ?_, ?_, hres, ?_, ?_, ?_⟩
  · simp [step, hread]
  · simp [step, hwrite]
  · obtain ⟨_, _, heq⟩ := (s.onRead http a).onWrite_eq
      (returns (handling http s.lessenAll .empty none a)) true
    rw [heq, hlog, responses_append, Handling.responses_events, hres]
    rfl
  · obtain ⟨_, _, heq⟩ := (s.onRead http a).onWrite_eq
      (returns (handling http s.lessenAll .empty none a)) true
    rw [heq]
    exact hlessen
  · rw [onWrite, hclose]
    cases returns (handling http s.lessenAll .empty none a) <;>
      cases http.needEof res <;> simp

/-- Reading a request whose handler throws a null pointer: the exception leaves the session. -/
theorem step_read_null (http : Http ρ) {s : Session ρ F A} (hread : s.pending = .read)
    {a : Arrival F A} (hremote : a.remote ≠ none) (hnull : ThrowsNull s.lessenAll none a) :
    ∃ t f d, step http s (.read a) = some t ∧ step http t (.written true) = none ∧
      t.log = s.log ++ [.handler f d] ∧
      handling http s.lessenAll .empty none a = .call f d a.reply ∧
      t.lessenAll = s.lessenAll ∧ t.pending = .threw .nullString := by
  obtain ⟨hlog, hpending, hlessen, -⟩ := onRead_follows http s a
  obtain ⟨f, d, hd, hanswer⟩ := exists_call_of_throwsNull http .empty hremote hnull
  rw [hd, follows, hanswer] at hpending
  refine ⟨s.onRead http a, f, d, by simp [step, hread], by simp [step, hpending], ?_, hd, hlessen,
    hpending⟩
  rw [hlog, hd, Handling.events, Handling.response, hanswer]
  rfl

theorem step_read_eq_none (http : Http ρ) {s : Session ρ F A} (hp : s.pending ≠ .read)
    (a : Arrival F A) : step http s (.read a) = none := by
  unfold step
  cases hs : s.pending with
  | read => exact absurd hs hp
  | write | accept | readWs | ended | threw => rfl

/-- In the coroutine server exactly the requests that are answered and keep the announcement
are as announced. -/
theorem exchange_announced_iff {http : Http ρ} (hlaw : http.Lawful) (s : Session ρ F A)
    {arrivals : List (Arrival F A)}
    (harrivals : ∀ a ∈ arrivals, a.req.isUpgrade = false ∧ a.remote ≠ none) :
    ∀ e ∈ exchangesFrom (step http) log (fun _ => none) (fun s => s.pending = .read) s arrivals,
      (e.Announced http ↔ ¬ ThrowsNull s.lessenAll e.left e.arrival ∧
        KeepsAnnouncement s.lessenAll e.arrival) := by
  refine forall_mem_exchangesFrom (step http) log _ _ (I := fun t => t.lessenAll = s.lessenAll)
    ?_ ?_ rfl harrivals
  · exact fun t a hp => step_read_eq_none http (of_decide_eq_false hp) a
  · rintro t a hlessen hp ⟨hup, hremote⟩
    by_cases hnull : ThrowsNull t.lessenAll none a
    · obtain ⟨u, f, d, hu, hwritten, hlog, -, hkeep, hpending⟩ :=
        step_read_null http (of_decide_eq_true hp) hremote hnull
      refine ⟨u, u, hu, by rw [hwritten]; rfl, hkeep.trans hlessen, ?_⟩
      refine iff_of_false ?_ fun h => h.1 (hlessen ▸ hnull)
      rintro ⟨res, hres, -⟩
      simp [hlog, responses] at hres
    · obtain ⟨u, v, res, hu, hv, hd, hres, hkeep, hpending⟩ :=
        step_read_written http (of_decide_eq_true hp) hup hremote hnull
      refine ⟨u, v, hu, by rw [hv]; rfl, hkeep.trans hlessen, ?_⟩
      rw [and_iff_right (hlessen ▸ hnull), ← hlessen,
        ← keepsAnnouncement_iff hlaw t.lessenAll hup hremote hd]
      simp [Exchange.Announced, hres, hpending]

end Coro.Session

/-- On a connection without upgrades and without errors every exchange is as announced exactly
if no handler that is called throws a null pointer, and the server is the asynchronous one or each
request that is read keeps the announcement. -/
theorem exchanges_announced_iff {http : Http ρ} (hlaw : http.Lawful) (lessenAll : Bool)
    (build : Build) {arrivals : List (Arrival F A)} (hup : ∀ a ∈ arrivals, a.req.isUpgrade = false)
    (hremote : ∀ a ∈ arrivals, a.remote ≠ none) :
    (∀ e ∈ exchanges http lessenAll arrivals build, e.Announced http) ↔
      ∀ e ∈ exchanges http lessenAll arrivals build,
        ¬ ThrowsNull lessenAll e.left e.arrival ∧
          (build = .async ∨ KeepsAnnouncement lessenAll e.arrival) := by
  have harrivals : ∀ a ∈ arrivals, a.req.isUpgrade = false ∧ a.remote ≠ none :=
    fun a ha => ⟨hup a ha, hremote a ha⟩
  cases build with
  | async =>
    have h := Async.HttpServer.exchange_announced_iff http (.init lessenAll) harrivals
    exact forall₂_congr fun e he => (h e he).trans (by simp [Async.HttpServer.init])
  | coro =>
    have h := Coro.Session.exchange_announced_iff hlaw (.init lessenAll) harrivals
    exact forall₂_congr fun e he => (h e he).trans (by simp [Coro.Session.init])

/-- Two requests for the same handler, which returns. -/
theorem exchanges_announced_iff_message :
    (exchanges Message.http false [getWith "/a".toList "1".toList, getWith "/a".toList "2".toList]
      .coro).length = 2 ∧
    ∀ e ∈ exchanges Message.http false
        [getWith "/a".toList "1".toList, getWith "/a".toList "2".toList] .coro,
      e.Announced Message.http := by
  refine ⟨by decide, (exchanges_announced_iff Message.http_lawful false .coro
    (by simp [getWith]) (by simp [getWith])).mpr ?_⟩
  have hkept : ∀ value, ¬ ThrowsNull false none (getWith "/a".toList value) ∧
      KeepsAnnouncement false (getWith "/a".toList value) := by
    intro value
    have hreached : Reached (StdMap.emplace ∅ "/a".toList 0) false
        (ownLocation false "/a".toList) :=
      ⟨2, by decide, by decide, by decide, by decide⟩
    refine ⟨?_, .inr (.inr ⟨rfl, hreached, _, rfl⟩)⟩
    rintro ⟨-, ⟨⟩⟩
  rintro e (_ | ⟨_, _ | ⟨_, h⟩⟩)
  · exact ⟨(hkept "1".toList).1, .inr (hkept "1".toList).2⟩
  · exact ⟨(hkept "2".toList).1, .inr (hkept "2".toList).2⟩
  · cases h

/-- The coroutine server announces an open connection with its 404 and reads no further. -/
theorem notFound_ends_session :
    ¬ ∀ e ∈ exchanges Message.http false [getWith "/b".toList []] .coro,
      e.Announced Message.http := by
  intro h
  obtain ⟨res, hres, hagain⟩ := h _ (List.mem_cons_self ..)
  have hopen : [Message.http.needEof res] = [false] := by
    have hmap := congrArg (List.map Message.http.needEof) hres
    exact hmap.symm.trans (by decide)
  exact absurd (hagain.mpr (List.head_eq_of_cons_eq hopen)) (by decide)

end FHT.Server
