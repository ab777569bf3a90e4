import Mathlib.Data.Finset.Max
import FHT.DBFacade.Facade
import FHT.DBFacade.Pool

/-!
# Queries that wait for a connection

A query that finds the pool empty waits on `m_condition`. If there is a connection at all,
another query holds it, and gives it back after at most three steps of its own, whatever `libpq`
answers. No wakeup is lost: while a query waits, there are at least as many queries about to
look at the pool, or to notify, as there are connections in it.

## Main definitions

- `Postgres.Blocked` — a query that waits, or is about to
- `Postgres.WillReturn` — a query goes on until it has given its connection back
- `Postgres.NeverStuck` — who waits can wait for somebody

## Main results

- `Postgres.neverStuck_iff` — after a start nobody is stuck, exactly if there is a connection
-/

namespace FHT.DBFacade

/-- How many steps the query makes before its connection is in the pool. -/
def Stage.left : Stage → Nat
  | .prepare _ => 3
  | .exec _ => 2
  | .destructor (some _) _ => 1
  | .destructor none _ | .getConnection | .waiting | .notify _ | .returned _ => 0

/-- The query is about to look at the pool, or to notify one that waits. -/
def Stage.isAwake : Stage → Bool
  | .getConnection | .notify _ => true
  | _ => false

theorem Stage.left_of_held {stage : Stage} {c : Nat} (h : stage.held = some c) :
    1 ≤ stage.left ∧ stage.left ≤ 3 := by
  cases stage with
  | prepare | exec => simp [left]
  | destructor connection =>
    cases connection with
    | none => cases h
    | some => simp [left]
  | _ => cases h

namespace Postgres

variable {S : Type*}

/-- The query waits in `getConnection`, or is about to. -/
def Blocked (s : Postgres S) (i : Nat) : Prop :=
  ∃ q, s.queries i = some q ∧ (q.stage = .waiting ∨ q.stage = .getConnection ∧ s.poolConn = [])

variable (lib : Libpq S) (gen : Str → Str)

/-- The query can make its next step, whatever `libpq` answers. -/
def GoesOn (s : Postgres S) (j : Nat) : Prop :=
  (∀ res, (step lib gen s (.prepare j res)).isSome) ∨
    (∀ res, (step lib gen s (.exec j res)).isSome) ∨ (step lib gen s (.freeConnection j)).isSome

/-- In every run from here the query goes on, and within three steps of its own the connection
is in the pool. -/
def WillReturn (s : Postgres S) (j c : Nat) : Prop :=
  ∀ acts t, (step lib gen).run s acts = some t →
    (∃ pre u, pre <+: acts ∧ (step lib gen).run s pre = some u ∧ some c ∈ u.poolConn) ∨
      t.Holds j c ∧ t.GoesOn lib gen j ∧
        (acts.filter fun a => a.query = some j).length < 3

/-- Who waits while the pool is empty waits for a connection that another query holds and will
return; and where queries are in flight, some of them is not blocked. -/
def NeverStuck (s : Postgres S) : Prop :=
  (∀ i, s.Blocked i → s.poolConn = [] →
      ∃ j c, j ≠ i ∧ s.Holds j c ∧ s.WillReturn lib gen j c) ∧
    ((∃ i, s.InFlight i) → ∃ i, s.InFlight i ∧ ¬ s.Blocked i)

variable {lib gen}

/-- A step of the holder brings the connection closer to the pool, and no other step takes it
away. -/
theorem Moves.holds {s s' : Postgres S} {a : Action} (h : s.Moves lib gen a s') {j c : Nat}
    {q : Query} (hj : s.queries j = some q) (hheld : q.stage.held = some c) :
    some c ∈ s'.poolConn ∧ a.query = some j ∨
      ∃ q', s'.queries j = some q' ∧ q'.stage.held = some c ∧
        q'.stage.left + (if a.query = some j then 1 else 0) ≤ q.stage.left := by
  by_cases ha : a.query = some j
  · rw [if_pos ha]
    have hq : ∀ {i q₁}, some i = some j → s.queries i = some q₁ → i = j ∧ q₁ = q := by
      intro i q₁ hij hi
      obtain rfl := Option.some.inj hij
      exact ⟨rfl, Option.some.inj (hi.symm.trans hj)⟩
    cases h with
    | run => cases ha
    | begin hi =>
      obtain rfl := Option.some.inj ha
      rw [hi] at hj
      cases hj
    | wait hi hst | null hi hst | take hi hst | freeNull hi hst | notifyNone hi hst
    | notify hi hst | spurious hi hst =>
      obtain ⟨-, rfl⟩ := hq ha hi
      rw [hst] at hheld
      cases hheld
    | @prepared i q₁ d r connection hi hst =>
      obtain ⟨rfl, rfl⟩ := hq ha hi
      rw [hst] at hheld ⊢
      obtain rfl : d = c := Option.some.inj hheld
      exact .inr ⟨_, (setStage_queries ..).trans (if_pos rfl), rfl, by simp [Stage.left]⟩
    | @prepareFailed i q₁ d res e connection hi hst =>
      obtain ⟨rfl, rfl⟩ := hq ha hi
      rw [hst] at hheld ⊢
      obtain rfl : d = c := Option.some.inj hheld
      exact .inr ⟨_, (setStage_queries ..).trans (if_pos rfl), rfl, by simp [Stage.left]⟩
    | @exec i q₁ d res connection hi hst =>
      obtain ⟨rfl, rfl⟩ := hq ha hi
      rw [hst] at hheld ⊢
      obtain rfl : d = c := Option.some.inj hheld
      exact .inr ⟨_, (setStage_queries ..).trans (if_pos rfl), rfl, by simp [Stage.left]⟩
    | @free i q₁ d out hi hst =>
      obtain ⟨rfl, rfl⟩ := hq ha hi
      rw [hst] at hheld
      obtain rfl : d = c := Option.some.inj hheld
      exact .inl ⟨List.mem_append_right _ (List.mem_singleton_self _), ha⟩
  · rw [if_neg ha]
    rcases h.queries_of_ne ha with hsame | ⟨q₁, hi, hst, -⟩
    · exact .inr ⟨q, hsame.trans hj, hheld, le_rfl⟩
    · obtain rfl : q₁ = q := Option.some.inj (hi.symm.trans hj)
      rw [hst] at hheld
      cases hheld

/-- The holder can make its next step: the connection it holds has been made. -/
theorem goesOn_of_holds {s : Postgres S} {j c : Nat} (h : s.Holds j c)
    (hc : c < s.connections.length) : s.GoesOn lib gen j := by
  obtain ⟨⟨query, params, stage⟩, hj, hheld⟩ := h
  have hconnection := List.getElem?_eq_getElem hc
  cases stage with
  | prepare d =>
    obtain rfl : d = c := Option.some.inj hheld
    exact .inl fun res => by simp [step, prepare, hj, hconnection]
  | exec d =>
    obtain rfl : d = c := Option.some.inj hheld
    exact .inr (.inl fun res => by simp [step, exec, hj, hconnection])
  | destructor connection out =>
    cases connection with
    | none => cases hheld
    | some d => exact .inr (.inr (by simp [step, freeConnection, hj]))
  | _ => cases hheld

theorem lt_of_holds {s : Postgres S} {j c : Nat} (hs : s.PoolKept) (h : s.Holds j c) :
    c < s.connections.length := by
  have hstock := (hs.stock (some c)).mpr (.inr ⟨j, lent_eq_some_iff.mpr h⟩)
  simpa [stock] using hstock

theorem willReturn_of_holds {s : Postgres S} {j c : Nat} (hs : s.PoolKept) (h : s.Holds j c) :
    s.WillReturn lib gen j c := by
  intro acts t hrun
  have hend := Machine.run_history (P := fun _ => True)
    (I := fun as v => (step lib gen).run s as = some v ∧ v.PoolKept ∧
      ((∃ pre u, pre <+: as ∧ (step lib gen).run s pre = some u ∧ some c ∈ u.poolConn) ∨
        ∃ q, v.queries j = some q ∧ q.stage.held = some c ∧
          (as.filter fun a => a.query = some j).length + q.stage.left ≤ 3))
    ?_ ?_ (fun _ _ => trivial) hrun
  · obtain ⟨-, hkept, hpre | ⟨q, hj, hheld, hle⟩⟩ := hend
    · exact .inl hpre
    · have hleft := Stage.left_of_held hheld
      have hholds : t.Holds j c := ⟨q, hj, hheld⟩
      exact .inr ⟨hholds, goesOn_of_holds hholds (lt_of_holds hkept hholds), by omega⟩
  · rintro as v a w ⟨hv, hkept, hcase⟩ - hstep
    have hw : (step lib gen).run s (as ++ [a]) = some w :=
      Machine.run_concat_eq_some.mpr ⟨v, hv, hstep⟩
    refine ⟨hw, step_kept hkept hstep, ?_⟩
    rcases hcase with ⟨pre, u, hpre, hu, hfree⟩ | ⟨q, hj, hheld, hle⟩
    · exact .inl ⟨pre, u, hpre.trans (List.prefix_append _ _), hu, hfree⟩
    · rcases (step_moves hstep).holds hj hheld with ⟨hfree, -⟩ | ⟨q', hj', hheld', hleft⟩
      · exact .inl ⟨as ++ [a], w, List.prefix_rfl, hw, hfree⟩
      · refine .inr ⟨q', hj', hheld', ?_⟩
        by_cases ha : a.query = some j
        · rw [if_pos ha] at hleft
          simp only [List.filter_append, List.length_append, List.filter_cons, ha, decide_true,
            if_true, List.filter_nil, List.length_singleton]
          omega
        · rw [if_neg ha] at hleft
          simp only [List.filter_append, List.length_append, List.filter_cons, ha, decide_false,
            List.filter_nil]
          simp
          omega
  · obtain ⟨q, hj, hheld⟩ := h
    have hleft := Stage.left_of_held hheld
    exact ⟨rfl, hs, .inr ⟨q, hj, hheld, by simpa using hleft.2⟩⟩

/-- The query `i` is about to look at the pool, or to notify. -/
def isAwake (s : Postgres S) (i : Nat) : Bool := (s.queries i).any fun q => q.stage.isAwake

theorem isAwake_of_query {s : Postgres S} {i : Nat} {q : Query} (h : s.queries i = some q) :
    s.isAwake i = q.stage.isAwake := by
  rw [isAwake, h]
  rfl

/-- Queries that are awake, each once. -/
structure Awakes (s : Postgres S) (l : List Nat) : Prop where
  nodup : l.Nodup
  awake : ∀ i ∈ l, s.isAwake i = true

/-- A query that goes to another stage may fall out of the list, or come into it. -/
theorem Awakes.setStage {s : Postgres S} {l : List Nat} (h : s.Awakes l) (i : Nat) (q : Query)
    (stage : Stage) : ∃ l', (s.setStage i q stage).Awakes l' ∧
      l.length + stage.isAwake.toNat ≤ l'.length + (s.isAwake i).toNat := by
  have herase : (s.setStage i q stage).Awakes (l.erase i) := by
    refine ⟨h.nodup.erase i, fun k hk => ?_⟩
    obtain ⟨hki, hk⟩ := h.nodup.mem_erase_iff.mp hk
    have hsame : (s.setStage i q stage).queries k = s.queries k :=
      (setStage_queries ..).trans (if_neg hki)
    rw [isAwake, hsame]
    exact h.awake k hk
  have hlength : l.length ≤ (l.erase i).length + (s.isAwake i).toNat := by
    by_cases hi : i ∈ l
    · rw [h.awake i hi, List.length_erase_of_mem hi, Bool.toNat_true]
      omega
    · rw [List.erase_of_not_mem hi]
      omega
  cases hst : stage.isAwake with
  | false => exact ⟨l.erase i, herase, by simpa using hlength⟩
  | true =>
    refine ⟨i :: l.erase i, ⟨List.nodup_cons.mpr ⟨h.nodup.not_mem_erase, herase.nodup⟩,
      List.forall_mem_cons.mpr ⟨?_, herase.awake⟩⟩, ?_⟩
    · exact (isAwake_of_query ((setStage_queries ..).trans (if_pos rfl))).trans hst
    · rw [List.length_cons, Bool.toNat_true]
      omega

/-- While a query waits, for each connection in the pool but `n` another query is awake. -/
structure Woken (n : Nat) (s : Postgres S) : Prop where
  waiters : ∀ i q, s.queries i = some q → q.stage = .waiting → i ∈ s.waiters
  awake : s.waiters ≠ [] → ∃ l, s.Awakes l ∧ s.poolConn.length ≤ l.length + n

theorem Woken.setStage {n n' : Nat} {s s₀ : Postgres S} (hs : s.Woken n) {i : Nat} {q : Query}
    {stage : Stage} (hqueries : s₀.queries = s.queries)
    (hi : stage = .waiting → i ∈ s₀.waiters)
    (hwaiters : ∀ k ≠ i, k ∈ s.waiters → k ∈ s₀.waiters)
    (hle : s₀.waiters ≠ [] → s₀.poolConn = [] ∨ s.waiters ≠ [] ∧
      s₀.poolConn.length + (s.isAwake i).toNat + n ≤
        s.poolConn.length + stage.isAwake.toNat + n') : (s₀.setStage i q stage).Woken n' := by
  refine ⟨fun k q' hk hst => ?_, fun hne => ?_⟩
  · rw [setStage_queries] at hk
    split at hk
    · next hki =>
      obtain rfl := Option.some.inj hk
      exact hki ▸ hi hst
    · next hki =>
      rw [hqueries] at hk
      exact hwaiters k hki (hs.waiters k q' hk hst)
  · rcases hle hne with hp | ⟨hne, hle⟩
    · refine ⟨[], ⟨List.nodup_nil, nofun⟩, ?_⟩
      show s₀.poolConn.length ≤ _
      rw [hp]
      exact Nat.zero_le _
    · obtain ⟨l, hl, hlength⟩ := hs.awake hne
      have hl₀ : s₀.Awakes l := ⟨hl.nodup, fun k hk => by
        rw [isAwake, hqueries]
        exact hl.awake k hk⟩
      obtain ⟨l', hl', hle'⟩ := hl₀.setStage i q stage
      have hawake : s₀.isAwake i = s.isAwake i := by rw [isAwake, isAwake, hqueries]
      rw [hawake] at hle'
      refine ⟨l', hl', ?_⟩
      show s₀.poolConn.length ≤ l'.length + n'
      omega

/-- No wakeup is lost. -/
theorem Moves.woken {s s' : Postgres S} {a : Action} (h : s.Moves lib gen a s')
    (hrun : s.isRun = true) (hs : s.Woken 0) : s'.Woken 0 := by
  cases h with
  | run =>
    rw [run_of_isRun hrun]
    exact hs
  | begin hi =>
    rw [if_pos hrun]
    refine hs.setStage rfl nofun (fun k _ hk => hk) fun hne => .inr ⟨hne, ?_⟩
    simp [isAwake, hi]
  | wait hi hst hp =>
    exact hs.setStage rfl (fun _ => List.mem_append_right _ (List.mem_singleton_self _))
      (fun k _ hk => List.mem_append_left _ hk) fun _ => .inl hp
  | null hi hst hp =>
    refine hs.setStage rfl nofun (fun k _ hk => hk) fun hne => .inr ⟨hne, ?_⟩
    simp [isAwake_of_query hi, hst, hp, Stage.isAwake]
  | take hi hst hp hc =>
    refine hs.setStage rfl ?_ (fun k _ hk => hk) fun hne => .inr ⟨hne, ?_⟩
    · split <;> exact nofun
    · simp [isAwake_of_query hi, hst, hp, Stage.isAwake]
  | prepared hi hst | prepareFailed hi hst =>
    refine hs.setStage rfl nofun (fun k _ hk => hk) fun hne => .inr ⟨hne, ?_⟩
    simp [isAwake_of_query hi, hst, Stage.isAwake, setConnection]
  | exec hi hst =>
    refine hs.setStage rfl nofun (fun k _ hk => hk) fun hne => .inr ⟨hne, ?_⟩
    simp [isAwake_of_query hi, hst, Stage.isAwake, setConnection]
  | freeNull hi hst =>
    refine hs.setStage rfl nofun (fun k _ hk => hk) fun hne => .inr ⟨hne, ?_⟩
    simp [isAwake_of_query hi, hst, Stage.isAwake]
  | free hi hst =>
    refine hs.setStage rfl nofun (fun k _ hk => hk) fun hne => .inr ⟨hne, ?_⟩
    simp [isAwake_of_query hi, hst, Stage.isAwake]
  | notifyNone hi hst hw =>
    exact hs.setStage rfl nofun (fun k _ hk => hk) fun hne => absurd hw hne
  | @notify i j q q' out hi hst hji hj hst' =>
    -- the query that notifies is not awake any more, and the one that it wakes is
    have hslack : (s.setStage i q (.returned out)).Woken 1 := by
      refine hs.setStage rfl nofun (fun k _ hk => hk) fun hne => .inr ⟨hne, ?_⟩
      simp [isAwake_of_query hi, hst, Stage.isAwake]
    have hj' : (s.setStage i q (.returned out)).queries j = some q' :=
      (setStage_queries ..).trans ((if_neg hji).trans hj)
    refine hslack.setStage rfl nofun (fun k hkj hk => (List.mem_erase_of_ne hkj).mpr hk)
      fun hne => .inr ⟨fun hnil => hne ?_, ?_⟩
    · exact congrArg (List.erase · j) hnil
    · rw [isAwake_of_query hj', hst']
      exact le_rfl
  | @spurious i q hi hst =>
    refine hs.setStage rfl nofun (fun k hki hk => (List.mem_erase_of_ne hki).mpr hk)
      fun hne => .inr ⟨fun hnil => hne ?_, ?_⟩
    · exact congrArg (List.erase · i) hnil
    · simp [isAwake_of_query hi, hst, Stage.isAwake]

/-- Before the facade runs no query is in flight. -/
def Idle (s : Postgres S) : Prop := s.waiters = [] ∧ ∀ i, ¬ s.InFlight i

theorem Moves.idle {s s' : Postgres S} {a : Action} (h : s.Moves lib gen a s')
    (hs : s.isRun = false → s.Idle) (hrun : s'.isRun = false) : s'.Idle := by
  cases h with
  | @run config logins =>
    cases hs' : s.isRun with
    | true =>
      rw [run_of_isRun hs', hs'] at hrun
      cases hrun
    | false =>
      obtain ⟨hw, hflight⟩ := hs hs'
      obtain ⟨hqueries, hwaiters⟩ := queries_run lib s config logins
      refine ⟨hwaiters.trans hw, fun i => ?_⟩
      rw [InFlight, hqueries]
      exact hflight i
  | @begin i query param hi =>
    obtain ⟨hw, hflight⟩ := hs hrun
    refine ⟨hw, ?_⟩
    rintro j ⟨q, hq, hret⟩
    rw [setStage_queries] at hq
    split at hq
    · obtain rfl := Option.some.inj hq
      have hrun : s.isRun = false := hrun
      simp [hrun, Stage.isReturned] at hret
    · exact hflight j ⟨q, hq, hret⟩
  | wait hi hst | null hi hst | take hi hst | prepared hi hst | prepareFailed hi hst | exec hi hst
  | freeNull hi hst | free hi hst | notifyNone hi hst | notify hi hst | spurious hi hst =>
    exact absurd ⟨_, hi, by rw [hst]; rfl⟩ ((hs hrun).2 _)

theorem run_idle {s : Postgres S} {acts : List Action}
    (hrun : (step lib gen).run init acts = some s) : s.isRun = false → s.Idle :=
  Machine.run_invariant (I := fun s => s.isRun = false → s.Idle)
    (fun _ _ _ hs ht hrun => (step_moves ht).idle hs hrun)
    (fun _ => ⟨rfl, fun _ ⟨_, hi, _⟩ => by cases hi⟩) hrun

/-- Who is awake while the pool is not empty is not blocked. -/
theorem inFlight_of_isAwake {s : Postgres S} {i : Nat} (h : s.isAwake i = true)
    (hp : s.poolConn ≠ []) : s.InFlight i ∧ ¬ s.Blocked i := by
  cases hq : s.queries i with
  | none =>
    rw [isAwake, hq] at h
    cases h
  | some q =>
    rw [isAwake_of_query hq] at h
    refine ⟨⟨q, hq, ?_⟩, ?_⟩
    · cases hst : q.stage with
      | returned =>
        rw [hst] at h
        cases h
      | _ => rfl
    · rintro ⟨q', hq', hst | ⟨-, hnil⟩⟩
      · obtain rfl : q = q' := Option.some.inj (hq.symm.trans hq')
        rw [hst] at h
        cases h
      · exact hp hnil

/-- A facade that runs with at least one connection. -/
theorem neverStuck_of_kept {s : Postgres S} (hs : s.PoolKept) (hwoken : s.Woken 0)
    (hlength : 0 < s.connections.length) : s.NeverStuck lib gen := by
  -- where the pool is empty somebody holds connection 0
  have hholder : s.poolConn = [] → ∃ j, s.Holds j 0 := by
    intro hp
    have hstock : some 0 ∈ s.stock := by simpa [stock] using hlength
    rcases (hs.stock (some 0)).mp hstock with hfree | ⟨j, hj⟩
    · have hfree : some 0 ∈ s.poolConn := hfree
      rw [hp] at hfree
      cases hfree
    · exact ⟨j, lent_eq_some_iff.mp hj⟩
  have hnot : ∀ {i j c}, s.Blocked i → s.Holds j c → j ≠ i := by
    rintro i j c ⟨q, hq, hst⟩ ⟨q', hq', hheld⟩ rfl
    obtain rfl : q = q' := Option.some.inj (hq.symm.trans hq')
    rcases hst with hst | ⟨hst, -⟩
    · rw [hst] at hheld
      cases hheld
    · rw [hst] at hheld
      cases hheld
  refine ⟨fun i hi hp => ?_, ?_⟩
  · obtain ⟨j, hj⟩ := hholder hp
    exact ⟨j, 0, hnot hi hj, hj, willReturn_of_holds hs hj⟩
  · rintro ⟨i, q, hq, hret⟩
    by_cases hp : s.poolConn = []
    · obtain ⟨j, hj⟩ := hholder hp
      refine ⟨j, ?_, fun hblocked => hnot hblocked hj rfl⟩
      obtain ⟨q', hq', hheld⟩ := hj
      refine ⟨q', hq', ?_⟩
      cases hst : q'.stage with
      | returned =>
        rw [hst] at hheld
        cases hheld
      | _ => rfl
    · by_cases hst : q.stage = .waiting
      · obtain ⟨l, hl, hle⟩ := hwoken.awake (List.ne_nil_of_mem (hwoken.waiters i q hq hst))
        obtain ⟨k, hk⟩ : ∃ k, k ∈ l := by
          refine List.exists_mem_of_length_pos ?_
          have hpos := List.length_pos_iff.mpr hp
          omega
        exact ⟨k, inFlight_of_isAwake (hl.awake k hk) hp⟩
      · refine ⟨i, ⟨q, hq, hret⟩, ?_⟩
        rintro ⟨q', hq', hst' | ⟨-, hp'⟩⟩
        · obtain rfl : q = q' := Option.some.inj (hq.symm.trans hq')
          exact hst hst'
        · exact hp hp'

theorem run_eq_of_ok {s : Postgres S} {config : Configuration} {logins : Nat → Login}
    (hok : (s.run lib config logins).2 = .ok true) : s.isRun = false ∧
      (s.run lib config logins).1 =
        { s.added lib config config.worker.toNat with isRun := true } := by
  cases hrun : s.isRun with
  | true =>
    rw [run_of_isRun hrun] at hok
    cases hok
  | false =>
    by_cases hall : ∀ i < config.worker.toNat, connects config (logins i)
    · rw [run_of_connects hrun hall]
      exact ⟨rfl, rfl⟩
    · obtain ⟨e, he⟩ := run_of_not_connects lib hrun hall
      rw [he] at hok
      cases hok

/-- A run calls finitely many queries. -/
theorem queries_none {s : Postgres S} {acts : List Action}
    (hrun : (step lib gen).run init acts = some s) : ∃ n, ∀ j ≥ n, s.queries j = none := by
  refine Machine.run_invariant (I := fun s => ∃ n, ∀ j ≥ n, s.queries j = none) ?_
    ⟨0, fun _ _ => rfl⟩ hrun
  rintro s a t ⟨n, hn⟩ ht
  obtain ⟨m, hm⟩ : ∃ m, ∀ j ≥ m, a.query ≠ some j := by
    cases hq : a.query with
    | none => exact ⟨0, nofun⟩
    | some i =>
      refine ⟨i + 1, fun j hj hij => ?_⟩
      obtain rfl := Option.some.inj hij
      omega
  refine ⟨max n m, fun j hj => ?_⟩
  have hnone := hn j (le_of_max_le_left hj)
  rcases (step_moves ht).queries_of_ne (hm j (le_of_max_le_right hj)) with hsame | ⟨q, hq, -⟩
  · exact hsame.trans hnone
  · rw [hnone] at hq
    cases hq

/-- With an empty pool, and nobody to fill it, a query waits for ever. -/
theorem not_neverStuck {s : Postgres S} (hrun : s.isRun = true) (hp : s.poolConn = [])
    (hflight : ∀ i, ¬ s.InFlight i) {j : Nat} (hj : s.queries j = none) :
    ∃ acts t, (step lib gen).run s acts = some t ∧ ¬ t.NeverStuck lib gen := by
  have hbegin : step lib gen s (.begin j [] []) =
      some (s.setStage j ⟨[], [], .getConnection⟩ .getConnection) := by
    simp only [step, begin, hj, hrun, if_true]
    rfl
  have hwait : step lib gen (s.setStage j ⟨[], [], .getConnection⟩ .getConnection)
      (.getConnection j) = some (setStage
        { s.setStage j ⟨[], [], .getConnection⟩ .getConnection with
          waiters := s.waiters ++ [j] } j ⟨[], [], .getConnection⟩ .waiting) := by
    have hj' := (setStage_queries s j ⟨[], [], .getConnection⟩ .getConnection j).trans (if_pos rfl)
    have hp' : (s.setStage j ⟨[], [], .getConnection⟩ .getConnection).poolConn = [] := hp
    simp only [step, getConnection, hj', hp']
    rfl
  refine ⟨[.begin j [] [], .getConnection j], _, Machine.run_cons_eq_some.mpr
    ⟨_, hbegin, Machine.run_cons_eq_some.mpr ⟨_, hwait, rfl⟩⟩, fun hnever => ?_⟩
  obtain ⟨k, c, hkj, ⟨q, hq, hheld⟩, -⟩ :=
    hnever.1 j ⟨_, (setStage_queries ..).trans (if_pos rfl), .inl rfl⟩ hp
  rw [setStage_queries, if_neg hkj] at hq
  have hq : s.queries k = some q := by
    rwa [show _ = s.queries k from (setStage_queries ..).trans (if_neg hkj)] at hq
  refine hflight k ⟨q, hq, ?_⟩
  cases hst : q.stage with
  | returned =>
    rw [hst] at hheld
    cases hheld
  | _ => rfl

/-- Behind a start that returned true nobody is ever stuck, exactly if the start made a
connection or one that failed before has left one. -/
theorem neverStuck_iff {before : List Action} {u : Postgres S} {config : Configuration}
    {logins : Nat → Login} (hbefore : (step lib gen).run init before = some u)
    (hok : (u.run lib config logins).2 = .ok true) :
    (∀ acts s, (step lib gen).run (u.run lib config logins).1 acts = some s →
      s.NeverStuck lib gen) ↔ 0 < config.worker ∨ u.poolConn ≠ [] := by
  obtain ⟨hrun, hstart⟩ := run_eq_of_ok hok
  obtain ⟨hwaiters, hflight⟩ := run_idle hbefore hrun
  obtain ⟨hqueries, hwaiters'⟩ := queries_run lib u config logins
  have hkept : (u.run lib config logins).1.PoolKept :=
    run_kept (run_poolKept hbefore) config logins
  have hisRun : (u.run lib config logins).1.isRun = true := by rw [hstart]
  constructor
  · intro hall
    by_contra hno
    obtain ⟨hworker, hp⟩ := not_or.mp hno
    have hzero : config.worker.toNat = 0 := by omega
    obtain ⟨n, hn⟩ := queries_none hbefore
    have hpool : (u.run lib config logins).1.poolConn = [] := by
      rw [hstart]
      simpa [added, hzero] using hp
    have hidle : ∀ i, ¬ (u.run lib config logins).1.InFlight i := by
      intro i
      rw [InFlight, hqueries]
      exact hflight i
    obtain ⟨acts, s, hs, hstuck⟩ : ∃ acts s,
        (step lib gen).run (u.run lib config logins).1 acts = some s ∧ ¬ s.NeverStuck lib gen :=
      not_neverStuck hisRun hpool hidle ((congrFun hqueries n).trans (hn n le_rfl))
    exact hstuck (hall acts s hs)
  · intro hcond acts s hs
    have hlength : 0 < (u.run lib config logins).1.connections.length := by
      rw [hstart]
      show 0 < (u.connections ++ List.replicate _ _).length
      rw [List.length_append, List.length_replicate]
      rcases hcond with hworker | hp
      · omega
      · obtain ⟨p, hmem⟩ := List.exists_mem_of_ne_nil _ hp
        have hstock := ((run_poolKept hbefore).stock p).mpr (.inl hmem)
        obtain ⟨c, hc, -⟩ := List.mem_map.mp hstock
        have hc := List.mem_range.mp hc
        omega
    have hstarted : (u.run lib config logins).1.Woken 0 := by
      refine ⟨fun i q hi hst => ?_, fun hne => absurd (hwaiters'.trans hwaiters) hne⟩
      rw [hqueries] at hi
      exact absurd ⟨q, hi, by rw [hst]; rfl⟩ (hflight i)
    have hsame := run_same hkept hisRun hs
    obtain ⟨hskept, -, hwoken⟩ : s.PoolKept ∧ s.isRun = true ∧ s.Woken 0 := by
      refine Machine.run_invariant (I := fun v => v.PoolKept ∧ v.isRun = true ∧ v.Woken 0) ?_
        ⟨hkept, hisRun, hstarted⟩ hs
      rintro v a w ⟨hv, hvrun, hvwoken⟩ hw
      exact ⟨step_kept hv hw, (step_same hv hvrun hw).isRun.trans hvrun,
        (step_moves hw).woken hvrun hvwoken⟩
    exact neverStuck_of_kept hskept hwoken (hsame.connections.symm ▸ hlength)

def withWorker (worker : Int) : Configuration :=
  ⟨"h".toList, "n".toList, "u".toList, "p".toList, 5432, worker⟩

/-- A facade that started with so many connections. -/
def started (worker : Int) : Postgres (Str → Option Str) :=
  (run statements init (withWorker worker) fun _ => ⟨true, true, []⟩).1

/-- Two queries, of which the second waits. -/
def twoQueries : List Action :=
  oneQuery ++ [.begin 1 "SELECT 1".toList [], .getConnection 1]

theorem neverStuck_one : ∃ s,
    (step statements selectUuid).run (started 1) twoQueries = some s ∧ s.Blocked 1 ∧
      s.poolConn = [] ∧ s.NeverStuck statements selectUuid := by
  refine ⟨_, rfl, ⟨_, rfl, .inl rfl⟩, rfl, ?_⟩
  exact (neverStuck_iff (rfl : (step statements selectUuid).run init [] = some init)
    (rfl : (run statements init (withWorker 1) fun _ => ⟨true, true, []⟩).2 = .ok true)).mpr
    (.inl (by decide)) twoQueries _ rfl

/-- Without a connection the start returns true, and the first query waits for ever. -/
theorem stuck_zero :
    (run statements init (withWorker 0) fun _ => ⟨true, true, []⟩).2 = .ok true ∧
    ∃ s, (step statements selectUuid).run (started 0) oneQuery = some s ∧
      s.Blocked 0 ∧ s.poolConn = [] ∧ (∀ j c, ¬ s.Holds j c) ∧
      ¬ s.NeverStuck statements selectUuid := by
  refine ⟨rfl, _, rfl, ⟨_, rfl, .inl rfl⟩, rfl, ?_⟩
  refine (and_iff_left_of_imp fun hnobody hnever => ?_).mpr ?_
  · obtain ⟨j, c, -, hj, -⟩ := hnever.1 0 ⟨_, rfl, .inl rfl⟩ rfl
    exact hnobody j c hj
  · rintro j c ⟨q, hq, hheld⟩
    cases j with
    | zero =>
      obtain rfl := Option.some.inj hq
      cases hheld
    | succ j => cases hq

end Postgres

end FHT.DBFacade
