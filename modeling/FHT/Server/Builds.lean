import FHT.Server.Isolation
import FHT.Server.KeepAlive

/-!
# Two builds of one server

`ServerAsync` and `ServerCoro` are written to do the same. On a connection they differ in what an
`HttpServer` carries over from one request to the next, and in the answers after which a `session`
returns although they leave the connection open.

## Main definitions

- `passes` — what a build does for each of the requests of a connection

## Main results

- `builds_agree_iff` — when the two builds do the same for all requests of a connection
-/

namespace FHT.Server

variable {ρ F A : Type}

/-- What a server does for a request, and whether it then reads the next one. -/
structure Pass (ρ F A : Type) where
  events : List (Event ρ F A)
  again : Bool

/-- The requests come in one after another; what is written is written without an error. -/
def passesFrom {σ : Type} (m : Machine σ (Action F A)) (log : σ → List (Event ρ F A))
    (reading : σ → Bool) : σ → List (Arrival F A) → List (Pass ρ F A)
  | _, [] => []
  | s, a :: as =>
    match m s (.read a) with
    | none => []
    | some t =>
      let u := (m t (.written true)).getD t
      ⟨(log u).drop (log s).length, reading u⟩ :: passesFrom m log reading u as

/-- What the builds do on a new connection. -/
def passes (http : Http ρ) (lessenAll : Bool) (arrivals : List (Arrival F A)) :
    Build → List (Pass ρ F A)
  | .async => passesFrom (Async.HttpServer.step http) Async.HttpServer.log
      (fun h => h.pending = .read) (.init lessenAll) arrivals
  | .coro => passesFrom (Coro.Session.step http) Coro.Session.log
      (fun s => s.pending = .read) (.init lessenAll) arrivals

/-- The completions of these requests. -/
def completions (arrivals : List (Arrival F A)) : List (Action F A) :=
  arrivals.flatMap fun a => [.read a, .written true]

/-- From `t` the answer is written, or there is nothing to write and the server has ended. -/
def Written {σ : Type} (m : Machine σ (Action F A)) (reading : σ → Bool) (t u : σ) : Prop :=
  m t (.written true) = some u ∨ m t (.written true) = none ∧ u = t ∧ reading u = false

theorem handlerCalls_events_eq (http : Http ρ) (req : Request) {d d' : Handling ρ F A}
    (h : d.events http req = d'.events http req) : d.called = d'.called := by
  have hcalls := congrArg handlerCalls h
  rw [Handling.handlerCalls_events, Handling.handlerCalls_events] at hcalls
  cases hd : d.called <;> cases hd' : d'.called <;> simp_all

namespace Async.HttpServer

/-- With nothing left of earlier requests the handling is that on a new connection. -/
theorem handling_of_nothingLeft (http : Http ρ) {h : HttpServer ρ F A} {a : Arrival F A}
    (hup : a.req.isUpgrade = false) (hleft : h.NothingLeft a) :
    handling http h.lessenAll h.dataReq h.func a = handling http h.lessenAll .empty none a := by
  unfold NothingLeft at hleft
  unfold handling
  cases hm : a.req.method.dispatched with
  | false => rfl
  | true =>
    simp only [if_true]
    cases hr : a.remote with
    | none => rfl
    | some info =>
      obtain ⟨hfunc, hreached⟩ := hleft hm (by simp [hr])
      simp only [hup, Bool.false_eq_true, if_false, routing]
      by_cases hL : ownLocation h.lessenAll a.req.target = []
      · simp only [hL, if_true, hfunc hL]
      · simp only [hL, if_false]
        cases hs : select a.H false (ownLocation h.lessenAll a.req.target)
            (ownLocation h.lessenAll a.req.target).length with
        | none => rfl
        | some p =>
          obtain ⟨f, i⟩ := p
          have hfill := (DataRequest.fill_eq_fill_empty_iff h.dataReq a info
            ('.' :: (ownLocation h.lessenAll a.req.target).drop i)).mpr
            (hreached (reached_of_select a.H false hs))
          simp only [routed, hfill]

/-- The events are those on a new connection exactly if nothing is left. -/
theorem events_eq_iff (http : Http ρ) {h : HttpServer ρ F A} {a : Arrival F A}
    (hup : a.req.isUpgrade = false) :
    (handling http h.lessenAll h.dataReq h.func a).events http a.req =
        (handling http h.lessenAll .empty none a).events http a.req ↔ h.NothingLeft a := by
  constructor
  · intro hevents
    rw [← isolated_iff http h hup, isolated_iff_called]
    intro p hp
    rw [← handlerCalls_events_eq http a.req hevents]
    exact hp
  · intro hleft
    rw [handling_of_nothingLeft http hup hleft]

/-- Reading a request and writing its answer, if there is one, with all that is done in between. -/
theorem exists_pass (http : Http ρ) {h : HttpServer ρ F A} (hread : h.pending = .read)
    {a : Arrival F A} (hup : a.req.isUpgrade = false) (hremote : a.remote ≠ none) :
    ∃ t u, step http h (.read a) = some t ∧ Written (step http) (fun h => h.pending = .read) t u ∧
      u.log = h.log ++ (handling http h.lessenAll h.dataReq h.func a).events http a.req ∧
      u.lessenAll = h.lessenAll ∧
      (u.pending = .read ↔
        ∃ res ∈ (handling http h.lessenAll h.dataReq h.func a).response http a.req,
          http.needEof res = false) := by
  obtain ⟨hlog, hpending, hlessen⟩ := onRead_follows http h a
  by_cases hnull : ThrowsNull h.lessenAll h.func a
  · obtain ⟨t, f, d, ht, hwritten, htlog, hd, hkeep, hthrew⟩ :=
      step_read_null http hread hremote hnull
    obtain ⟨-, rfl⟩ := step_eq_some ht
    have hnone := (response_eq_none_iff http h.lessenAll h.dataReq h.func hup hremote).mpr hnull
    refine ⟨_, _, ht, .inr ⟨hwritten, rfl, by simp [hthrew]⟩, hlog, hlessen, ?_⟩
    rw [hnone]
    simp [hthrew]
  · obtain ⟨res, hres⟩ := exists_response http h.lessenAll h.dataReq h.func hup hremote hnull
    have hwrite : (h.onRead http a).pending = .write (http.needEof res) := by
      rw [hpending, follows_of_response hres]
    refine ⟨h.onRead http a, (h.onRead http a).onWrite (http.needEof res) true, ?_, .inl ?_, ?_⟩
    · simp [step, hread]
    · simp [step, hwrite]
    · rw [hres, onWrite]
      cases hclose : http.needEof res <;> simp [hlog, hlessen, hclose]

end Async.HttpServer

namespace Coro.Session

theorem exists_pass (http : Http ρ) {s : Session ρ F A} (hread : s.pending = .read)
    {a : Arrival F A} (hup : a.req.isUpgrade = false) (hremote : a.remote ≠ none) :
    ∃ t u, step http s (.read a) = some t ∧ Written (step http) (fun s => s.pending = .read) t u ∧
      u.log = s.log ++ (handling http s.lessenAll .empty none a).events http a.req ∧
      u.lessenAll = s.lessenAll ∧
      (u.pending = .read ↔
        ∃ res ∈ (handling http s.lessenAll .empty none a).response http a.req,
          http.needEof res = false ∧
            returns (handling http s.lessenAll .empty none a) = false) := by
  obtain ⟨hlog, -⟩ := onRead_follows http s a
  by_cases hnull : ThrowsNull s.lessenAll none a
  · obtain ⟨t, f, d, ht, hwritten, -, -, hkeep, hthrew⟩ := step_read_null http hread hremote hnull
    obtain ⟨-, rfl⟩ := step_eq_some ht
    have hnone := (response_eq_none_iff http s.lessenAll .empty none hup hremote).mpr hnull
    refine ⟨_, _, ht, .inr ⟨hwritten, rfl, by simp [hthrew]⟩, hlog, hkeep, ?_⟩
    rw [hnone]
    simp [hthrew]
  · obtain ⟨t, u, res, ht, hu, hres, -, hlessen, hpending⟩ :=
      step_read_written http hread hup hremote hnull
    refine ⟨t, u, ht, .inl hu, ?_, hlessen, ?_⟩
    · obtain ⟨-, rfl⟩ := step_eq_some ht
      obtain ⟨returns, -, rfl⟩ := step_eq_some hu
      obtain ⟨_, _, heq⟩ := (s.onRead http a).onWrite_eq returns true
      rw [heq]
      exact hlog
    · simpa [hres] using hpending

end Coro.Session

/-- The builds do the same for one request exactly if nothing is left of the earlier ones, and the
answer keeps what it announces or there is none. -/
theorem same_pass_iff {http : Http ρ} (hlaw : http.Lawful) {h : Async.HttpServer ρ F A}
    {a : Arrival F A} (hup : a.req.isUpgrade = false) (hremote : a.remote ≠ none) :
    (handling http h.lessenAll h.dataReq h.func a).events http a.req =
        (handling http h.lessenAll .empty none a).events http a.req ∧
      ((∃ res ∈ (handling http h.lessenAll h.dataReq h.func a).response http a.req,
          http.needEof res = false) ↔
        ∃ res ∈ (handling http h.lessenAll .empty none a).response http a.req,
          http.needEof res = false ∧
            Coro.Session.returns (handling http h.lessenAll .empty none a) = false) ↔
    h.NothingLeft a ∧ (KeepsAnnouncement h.lessenAll a ∨ ThrowsNull h.lessenAll none a) := by
  rw [Async.HttpServer.events_eq_iff http hup]
  refine and_congr_right fun hleft => ?_
  rw [Async.HttpServer.handling_of_nothingLeft http hup hleft,
    ← response_eq_none_iff http h.lessenAll .empty none hup hremote]
  cases hres : (handling http h.lessenAll .empty none a).response http a.req with
  | none => simp
  | some res =>
    rw [← Coro.Session.keepsAnnouncement_iff hlaw h.lessenAll hup hremote hres]
    simp

/-- The request is handled alike by both builds, in this state of the asynchronous one: nothing is
left for it, and it keeps the announcement or its handler ends both. -/
def Alike (h : Async.HttpServer ρ F A) (act : Action F A) (_ : Async.HttpServer ρ F A) : Prop :=
  ∀ a, act = .read a →
    h.NothingLeft a ∧ (KeepsAnnouncement h.lessenAll a ∨ ThrowsNull h.lessenAll none a)

theorem alike_read_iff {h t : Async.HttpServer ρ F A} {a : Arrival F A} :
    Alike h (.read a) t ↔
      h.NothingLeft a ∧ (KeepsAnnouncement h.lessenAll a ∨ ThrowsNull h.lessenAll none a) := by
  constructor
  · exact fun halike => halike a rfl
  · rintro halike _ ⟨⟩
    exact halike

theorem alike_written (h t : Async.HttpServer ρ F A) : Alike t (.written true) h := by
  rintro a ⟨⟩

theorem completions_cons (a : Arrival F A) (as : List (Arrival F A)) :
    completions (a :: as) = .read a :: .written true :: completions as := rfl

section PassesFrom

variable {σ : Type} {m : Machine σ (Action F A)} {log : σ → List (Event ρ F A)}
  {reading : σ → Bool}

theorem passesFrom_cons_of_steps {s t u : σ} {a : Arrival F A} {as : List (Arrival F A)}
    (ht : m s (.read a) = some t) (hu : Written m reading t u) :
    passesFrom m log reading s (a :: as) =
      ⟨(log u).drop (log s).length, reading u⟩ :: passesFrom m log reading u as := by
  simp only [passesFrom, ht]
  rcases hu with hu | ⟨hnone, rfl, -⟩
  · rw [hu, Option.getD_some]
  · rw [hnone, Option.getD_none]

theorem passesFrom_of_refused {s : σ} {a : Arrival F A} {as : List (Arrival F A)}
    (hrefused : m s (.read a) = none) : passesFrom m log reading s (a :: as) = [] := by
  rw [passesFrom, hrefused]

end PassesFrom

/-- A server that has ended reads none of the requests. -/
theorem along_completions_of_ended (http : Http ρ) {h : Async.HttpServer ρ F A}
    (hended : h.pending ≠ .read) (arrivals : List (Arrival F A)) :
    (Async.HttpServer.step http).Along Alike h (completions arrivals) := by
  cases arrivals with
  | nil => trivial
  | cons a as =>
    intro t ht
    rw [Async.HttpServer.step_read_eq_none http hended a] at ht
    cases ht

theorem along_completions_cons (http : Http ρ) {h t u : Async.HttpServer ρ F A} {a : Arrival F A}
    {as : List (Arrival F A)} (ht : Async.HttpServer.step http h (.read a) = some t)
    (hu : Written (Async.HttpServer.step http) (fun h => h.pending = .read) t u) :
    (Async.HttpServer.step http).Along Alike h (completions (a :: as)) ↔
      Alike h (.read a) t ∧ (Async.HttpServer.step http).Along Alike u (completions as) := by
  rw [completions_cons, Machine.along_cons_of_step ht]
  refine and_congr_right fun _ => ?_
  rcases hu with hu | ⟨hnone, rfl, hended⟩
  · rw [Machine.along_cons_of_step hu]
    exact and_iff_right (alike_written u t)
  · refine iff_of_true ?_ (along_completions_of_ended http (of_decide_eq_false hended) as)
    intro v hv
    rw [hnone] at hv
    cases hv

theorem passesFrom_eq_iff {http : Http ρ} (hlaw : http.Lawful) {arrivals : List (Arrival F A)}
    (harrivals : ∀ a ∈ arrivals, a.req.isUpgrade = false ∧ a.remote ≠ none)
    {h : Async.HttpServer ρ F A} {s : Coro.Session ρ F A} (hlessen : s.lessenAll = h.lessenAll)
    (hread : h.pending = .read ↔ s.pending = .read) :
    passesFrom (Async.HttpServer.step http) Async.HttpServer.log (fun h => h.pending = .read) h
        arrivals =
      passesFrom (Coro.Session.step http) Coro.Session.log (fun s => s.pending = .read) s
        arrivals ↔
    (Async.HttpServer.step http).Along Alike h (completions arrivals) := by
  induction arrivals generalizing h s with
  | nil => exact iff_of_true rfl trivial
  | cons a as ih =>
    obtain ⟨⟨hup, hremote⟩, hrest⟩ := List.forall_mem_cons.mp harrivals
    by_cases hh : h.pending = .read
    · have hs := hread.mp hh
      obtain ⟨t, u, ht, hu, hlog, hkeep, hpending⟩ :=
        Async.HttpServer.exists_pass http hh hup hremote
      obtain ⟨t', u', ht', hu', hlog', hkeep', hpending'⟩ :=
        Coro.Session.exists_pass http hs hup hremote
      rw [hlessen] at hlog' hpending'
      rw [passesFrom_cons_of_steps ht hu, passesFrom_cons_of_steps ht' hu',
        along_completions_cons http ht hu, alike_read_iff, ← same_pass_iff hlaw hup hremote, hlog,
        hlog', List.drop_left, List.drop_left, List.cons.injEq, Pass.mk.injEq, decide_eq_decide,
        hpending, hpending', and_assoc, and_assoc]
      refine and_congr_right fun _ => and_congr_right fun hagain => ?_
      -- the states may differ by now; what matters is that both read on or neither does
      exact ih hrest (hkeep'.trans (hlessen.trans hkeep.symm))
        (hpending.trans (hagain.trans hpending'.symm))
    · have hs : s.pending ≠ .read := fun hs => hh (hread.mpr hs)
      rw [passesFrom_of_refused (Async.HttpServer.step_read_eq_none http hh a),
        passesFrom_of_refused (Coro.Session.step_read_eq_none http hs a)]
      -- neither reads on, so there is nothing to compare
      exact iff_of_true rfl (along_completions_of_ended http hh (a :: as))

/-- On a connection without upgrades and without errors the two builds do the same exactly if no
request finds anything left of an earlier one, and none is answered with an open connection but by
what a handler returns. A handler that throws a null pointer ends either. -/
theorem builds_agree_iff {http : Http ρ} (hlaw : http.Lawful) (lessenAll : Bool)
    {arrivals : List (Arrival F A)} (hup : ∀ a ∈ arrivals, a.req.isUpgrade = false)
    (hremote : ∀ a ∈ arrivals, a.remote ≠ none) :
    passes http lessenAll arrivals .async = passes http lessenAll arrivals .coro ↔
      (Async.HttpServer.step http).Along Alike (.init lessenAll) (completions arrivals) :=
  passesFrom_eq_iff hlaw (fun a ha => ⟨hup a ha, hremote a ha⟩) rfl (iff_of_true rfl rfl)

/-- The first request reaches the handler, the second none. -/
theorem builds_agree_iff_message :
    let arrivals : List (Arrival Nat Unit) := [getWith "/a".toList [], getWith "/b".toList []]
    passes Message.http false arrivals .async = passes Message.http false arrivals .coro ↔
      (Async.HttpServer.step Message.http).Along Alike (.init false) (completions arrivals) :=
  builds_agree_iff Message.http_lawful false (by simp [getWith]) (by simp [getWith])

end FHT.Server
