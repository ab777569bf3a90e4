import FHT.Server.LessenAll

/-!
# The connections of a server

A server serves its connections at the same time. What they share is the flag that is copied when
a connection is made; the registry is read anew for each request and comes with it.

## Main results

- `ServerState.connection_alone` — a connection does what it would do if it were the only one
-/

namespace FHT.Server

variable {F A : Type}

/-- What an action is for the connection `i`. -/
def ServerAction.share (i : Nat) : ServerAction F A → Option (Action F A)
  | .conn j act => if j = i then some act else none
  | .run _ | .lessenAll _ | .accept _ => none

namespace ServerState

variable {L σ : Type} (b : Sessions L σ F A)

/-- The connection `i` is the one accepted by this name, and `own` is what has happened on it. -/
def Served (i : Nat) (c : σ) (own : List (Action F A)) (s : ServerState L σ) : Prop :=
  ∀ c', s.connections i = some c' → b.step.run c own = some c'

theorem Served.step {i : Nat} {c : σ} {own : List (Action F A)} {s t : ServerState L σ}
    {a : ServerAction F A} (hs : Served b i c own s) (ha : a ≠ .accept i)
    (hstep : ServerState.step b s a = some t) :
    Served b i c (own ++ (a.share i).toList) t := by
  intro c' hc'
  cases a with
  | run listens =>
    obtain rfl := Option.some.inj hstep
    cases hc'
  | lessenAll flag =>
    obtain rfl := Option.some.inj hstep
    rw [ServerAction.share, Option.toList_none, List.append_nil]
    exact hs c' hc'
  | accept j =>
    have hij : i ≠ j := fun h => ha (h ▸ rfl)
    rw [ServerAction.share, Option.toList_none, List.append_nil]
    simp only [ServerState.step] at hstep
    split at hstep
    · obtain rfl := Option.some.inj hstep
      dsimp only at hc'
      rw [Function.update_of_ne hij] at hc'
      exact hs c' hc'
    · cases hstep
  | conn j act =>
    simp only [ServerState.step] at hstep
    split at hstep
    · next d hd =>
      obtain ⟨d', hd', rfl⟩ := Option.map_eq_some_iff.mp hstep
      dsimp only at hc'
      by_cases hij : i = j
      · subst hij
        rw [Function.update_self] at hc'
        obtain rfl := Option.some.inj hc'
        rw [ServerAction.share, if_pos rfl]
        exact Machine.run_concat_eq_some.mpr ⟨d, hs d hd, hd'⟩
      · rw [Function.update_of_ne hij] at hc'
        rw [ServerAction.share, if_neg (Ne.symm hij), Option.toList_none, List.append_nil]
        exact hs c' hc'
    · cases hstep

/-- Whatever else happens on the server after a connection was accepted, the connection is where
what happened on it leads from the state that it was made in, by the flag and the listener of that
moment. -/
theorem connection_alone {pre post : List (ServerAction F A)} {i : Nat} {t : ServerState L σ}
    {c : σ} (hpost : .accept i ∉ post)
    (hrun : (step b).run init (pre ++ .accept i :: post) = some t)
    (hc : t.connections i = some c) :
    ∃ flag, (flags pre).2 = some flag ∧
      b.step.run (b.accept (flags pre).1 (b.listen flag))
        (post.filterMap (ServerAction.share i)) = some c := by
  rw [Machine.run_append, Option.bind_eq_some_iff] at hrun
  obtain ⟨s, hs, hrun⟩ := hrun
  obtain ⟨u, hu, hrun⟩ := Machine.run_cons_eq_some.mp hrun
  obtain ⟨hflag, hlistener⟩ := run_flags b hs
  simp only [step] at hu
  split at hu
  · next l hl _ =>
    obtain ⟨flag, hat, rfl⟩ := hlistener l hl
    obtain rfl := Option.some.inj hu
    refine ⟨flag, hat, ?_⟩
    have hend := Machine.run_history (P := fun a => a ≠ .accept i)
      (I := fun acts t => Served b i (b.accept s.lessenAll (b.listen flag))
        (acts.filterMap (ServerAction.share i)) t)
      (fun acts s a t hs ha hstep => by
        have hlast : [a].filterMap (ServerAction.share i) = (a.share i).toList := by
          cases ha' : a.share i <;> simp [ha']
        rw [List.filterMap_append, hlast]
        exact hs.step b ha hstep) ?_ ?_ hrun
    · exact hflag ▸ hend c hc
    · intro c' hc'
      dsimp only at hc'
      rw [Function.update_self] at hc'
      exact congrArg some (Option.some.inj hc')
    · rintro a ha rfl
      exact hpost ha
  · cases hu

end ServerState

/-- Two connections of the asynchronous server, whose requests come in by turns. -/
theorem connection_alone_two :
    let request : Action Nat Unit := .read (getWith "/a".toList [])
    let acts : List (ServerAction Nat Unit) := [.accept 1, .conn 1 request, .conn 0 request]
    ∃ t c, (ServerState.step (Async.sessions Message.http)).run .init
        (.run true :: .accept 0 :: acts) = some t ∧ t.connections 0 = some c ∧
      (Async.HttpServer.step Message.http).run (.init false) [request] = some c := by
  obtain ⟨flag, -, halone⟩ := ServerState.connection_alone (Async.sessions Message.http)
    (by simp : ServerAction.accept 0 ∉ [.accept 1, .conn 1 (.read (getWith "/a".toList [])),
      .conn 0 (.read (getWith "/a".toList []))])
    (rfl : (ServerState.step (Async.sessions Message.http)).run .init
      ([.run true] ++ .accept 0 :: _) = some _) rfl
  exact ⟨_, _, rfl, rfl, halone⟩

end FHT.Server
