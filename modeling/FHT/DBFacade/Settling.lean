import Mathlib.Algebra.GroupWithZero.Nat
import Mathlib.Algebra.Order.BigOperators.Group.Finset
import FHT.DBFacade.Waiting

/-!
# Queries come to their end

A query that was woken may find the pool empty again, so that it can wait any number of times.
Every wakeup is the last step but one of another query, though: each step that is not a new query
and not a spurious wakeup makes the work that is left less, whichever query takes it and whatever
`libpq` answers.

## Main definitions

- `Postgres.work` — the work that is left to some queries

## Main results

- `Postgres.settles` — queries that are left to themselves return, and the pool is full again
-/

namespace FHT.DBFacade

/-- A wakeup lifts the query that waits by one, which its notifier pays. -/
def Stage.rank : Stage → Nat
  | .getConnection => 6
  | .waiting => 5
  | .prepare _ => 5
  | .exec _ => 4
  | .destructor (some _) _ => 3
  | .notify _ => 2
  | .destructor none _ => 1
  | .returned _ => 0

theorem Stage.rank_le (stage : Stage) : stage.rank ≤ 6 := by
  unfold rank
  split <;> decide

namespace Postgres

variable {S : Type*}

/-- A step with which a query that was called goes on. -/
def Action.continues : Action → Bool
  | .getConnection _ | .prepare _ _ | .exec _ _ | .freeConnection _ | .notify _ _ => true
  | .run _ _ | .begin _ _ _ | .spurious _ => false

/-- The work that is left to the query `i`. -/
def rank (s : Postgres S) (i : Nat) : Nat := (s.queries i).elim 0 fun q => q.stage.rank

def work (I : Finset Nat) (s : Postgres S) : Nat := ∑ i ∈ I, s.rank i

theorem rank_of_query {s : Postgres S} {i : Nat} {q : Query} (h : s.queries i = some q) :
    s.rank i = q.stage.rank := by
  rw [rank, h]
  rfl

theorem work_le (I : Finset Nat) (s : Postgres S) : s.work I ≤ 6 * I.card := by
  have hle : ∀ i ∈ I, s.rank i ≤ 6 := by
    intro i _
    cases hi : s.queries i with
    | none =>
      rw [rank, hi]
      exact Nat.zero_le _
    | some q =>
      rw [rank_of_query hi]
      exact q.stage.rank_le
  have hsum : s.work I ≤ I.card * 6 := Finset.sum_le_card_nsmul I s.rank 6 hle
  rwa [Nat.mul_comm] at hsum

/-- The work changes by that of the query that goes to another stage. -/
theorem work_setStage {I : Finset Nat} {s s₀ : Postgres S} {i : Nat} {q : Query} {stage : Stage}
    (hqueries : s₀.queries = s.queries) (hi : i ∈ I) :
    (s₀.setStage i q stage).work I + s.rank i = s.work I + stage.rank := by
  have hrest : ∑ k ∈ I.erase i, (s₀.setStage i q stage).rank k = ∑ k ∈ I.erase i, s.rank k := by
    refine Finset.sum_congr rfl fun k hk => ?_
    rw [rank, rank, setStage_queries, if_neg (Finset.ne_of_mem_erase hk), hqueries]
  have hnew : (s₀.setStage i q stage).rank i = stage.rank :=
    rank_of_query ((setStage_queries ..).trans (if_pos rfl))
  rw [work, work, ← Finset.add_sum_erase I _ hi, ← Finset.add_sum_erase I s.rank hi, hrest, hnew]
  omega

/-- Only queries of `I` are in flight. -/
def Within (I : Finset Nat) (s : Postgres S) : Prop := ∀ i, s.InFlight i → i ∈ I

theorem Within.mem {I : Finset Nat} {s : Postgres S} (h : s.Within I) {i : Nat} {q : Query}
    (hi : s.queries i = some q) (hst : q.stage.isReturned = false) : i ∈ I := h i ⟨q, hi, hst⟩

theorem Within.setStage {I : Finset Nat} {s s₀ : Postgres S} (h : s.Within I)
    (hqueries : s₀.queries = s.queries) {i : Nat} {q : Query} {stage : Stage} (hi : i ∈ I) :
    (s₀.setStage i q stage).Within I := by
  rintro k ⟨q', hk, hret⟩
  rw [setStage_queries] at hk
  split at hk
  · next hki => exact hki ▸ hi
  · rw [hqueries] at hk
    exact h k ⟨q', hk, hret⟩

variable {lib : Libpq S} {gen : Str → Str}

/-- A query goes to a stage with less work. -/
theorem work_lt_setStage {I : Finset Nat} {s s₀ : Postgres S} (h : s.Within I) {i : Nat}
    {q q' : Query} {stage : Stage} (hqueries : s₀.queries = s.queries)
    (hi : s.queries i = some q) (hlt : stage.rank < q.stage.rank) :
    (s₀.setStage i q' stage).Within I ∧ (s₀.setStage i q' stage).work I < s.work I := by
  have hret : q.stage.isReturned = false := by
    cases hst : q.stage with
    | returned =>
      rw [hst] at hlt
      cases hlt
    | _ => rfl
  have hmem := h.mem hi hret
  refine ⟨h.setStage hqueries hmem, ?_⟩
  have hwork : (s₀.setStage i q' stage).work I + s.rank i = s.work I + stage.rank :=
    work_setStage hqueries hmem
  rw [rank_of_query hi] at hwork
  omega

/-- Each step with which a query goes on leaves less work. -/
theorem Moves.work_lt {I : Finset Nat} {s s' : Postgres S} {a : Action}
    (h : s.Moves lib gen a s') (hs : s.Within I) (ha : a.continues) :
    s'.Within I ∧ s'.work I < s.work I := by
  cases h with
  | run | begin | spurious => cases ha
  | wait hi hst | null hi hst | prepared hi hst | prepareFailed hi hst | exec hi hst
  | freeNull hi hst | free hi hst | notifyNone hi hst =>
    exact work_lt_setStage hs rfl hi (by simp [hst, Stage.rank])
  | take hi hst =>
    refine work_lt_setStage hs rfl hi ?_
    rw [hst]
    split <;> simp [Stage.rank]
  | @notify i j q q' out hi hst hji hj hst' =>
    have himem := hs.mem hi (by rw [hst]; rfl)
    have hjmem := hs.mem hj (by rw [hst']; rfl)
    have hreturned : (s.setStage i q (.returned out)).work I + s.rank i =
        s.work I + (Stage.returned out).rank := work_setStage rfl himem
    have hj' : (s.setStage i q (.returned out)).rank j = q'.stage.rank :=
      rank_of_query ((setStage_queries ..).trans ((if_neg hji).trans hj))
    refine ⟨(hs.setStage rfl himem).setStage rfl hjmem, ?_⟩
    -- the notifier has paid for the wakeup
    refine Nat.lt_of_add_lt_add_right ((work_setStage (s := s.setStage i q (.returned out)) rfl
      hjmem).trans_lt ?_)
    rw [rank_of_query hi, hst] at hreturned
    rw [hj', hst']
    simp only [Stage.rank] at hreturned ⊢
    omega

/-- Who is on the list of `m_condition` waits, and is there once. -/
structure Waits (s : Postgres S) : Prop where
  nodup : s.waiters.Nodup
  waiting : ∀ i ∈ s.waiters, ∃ q, s.queries i = some q ∧ q.stage = .waiting

/-- A query that does not wait goes to another stage. -/
theorem Waits.setStage {s s₀ : Postgres S} (h : s.Waits) (hqueries : s₀.queries = s.queries)
    (hwaiters : s₀.waiters = s.waiters) {i : Nat} {q : Query} {stage : Stage}
    (hi : ∀ q, s.queries i = some q → q.stage ≠ .waiting) : (s₀.setStage i q stage).Waits := by
  refine ⟨hwaiters ▸ h.nodup, fun k hk => ?_⟩
  obtain ⟨q', hk, hst⟩ := h.waiting k (hwaiters ▸ hk)
  have hki : k ≠ i := fun hki => hi q' (hki ▸ hk) hst
  exact ⟨q', (setStage_queries ..).trans ((if_neg hki).trans (hqueries ▸ hk)), hst⟩

/-- A query leaves the list. -/
theorem Waits.wake {s : Postgres S} (h : s.Waits) (i : Nat) (q : Query) :
    (Postgres.setStage { s with waiters := s.waiters.erase i } i q .getConnection).Waits := by
  refine ⟨h.nodup.erase i, fun k hk => ?_⟩
  obtain ⟨hki, hk⟩ := h.nodup.mem_erase_iff.mp hk
  obtain ⟨q', hk, hst⟩ := h.waiting k hk
  exact ⟨q', (setStage_queries ..).trans ((if_neg hki).trans hk), hst⟩

theorem Moves.waits {s s' : Postgres S} {a : Action} (h : s.Moves lib gen a s')
    (hs : s.Waits) : s'.Waits := by
  have hnot : ∀ {i q}, s.queries i = some q → q.stage ≠ .waiting →
      ∀ q', s.queries i = some q' → q'.stage ≠ .waiting := by
    intro i q hi hst q' hi'
    obtain rfl : q = q' := Option.some.inj (hi.symm.trans hi')
    exact hst
  cases h with
  | @run config logins =>
    obtain ⟨hqueries, hwaiters⟩ := queries_run lib s config logins
    exact ⟨hwaiters ▸ hs.nodup, fun i hi => hqueries ▸ hs.waiting i (hwaiters ▸ hi)⟩
  | begin hi => exact hs.setStage rfl rfl (by simp [hi])
  | @wait i q hi hst hp =>
    -- who is on the list waits already, and this query is about to
    have hni : i ∉ s.waiters := by
      intro hmem
      obtain ⟨q', hi', hst'⟩ := hs.waiting i hmem
      exact hnot hi (by rw [hst]; exact nofun) q' hi' hst'
    refine ⟨List.concat_eq_append ▸ hs.nodup.concat hni, fun k hk => ?_⟩
    by_cases hki : k = i
    · exact ⟨_, (setStage_queries ..).trans (if_pos hki), rfl⟩
    · have hk : k ∈ s.waiters := (List.mem_append.mp hk).resolve_right (by simpa using hki)
      obtain ⟨q', hk, hst⟩ := hs.waiting k hk
      exact ⟨q', (setStage_queries ..).trans ((if_neg hki).trans hk), hst⟩
  | null hi hst | take hi hst | prepared hi hst | prepareFailed hi hst | exec hi hst
  | freeNull hi hst | free hi hst | notifyNone hi hst =>
    refine hs.setStage ?_ ?_ (hnot hi (by rw [hst]; exact nofun))
    · rfl
    · rfl
  | notify hi hst hji hj hst' =>
    exact (hs.setStage rfl rfl (hnot hi (by rw [hst]; exact nofun))).wake _ _
  | spurious hi hst => exact hs.wake _ _

theorem run_waits {s : Postgres S} {acts : List Action}
    (hrun : (step lib gen).run init acts = some s) : s.Waits :=
  Machine.run_invariant (I := Waits) (fun _ _ _ hs ht => (step_moves ht).waits hs)
    ⟨List.nodup_nil, fun _ hi => absurd hi List.not_mem_nil⟩ hrun

/-- A start wakes nobody, as nobody waits. -/
theorem Moves.woken_of_idle {s s' : Postgres S} {a : Action} (h : s.Moves lib gen a s')
    (hrun : s.isRun = false) (hs : s.Idle) (hrun' : s'.isRun = true) : s'.Woken 0 := by
  cases h with
  | @run config logins =>
    obtain ⟨hqueries, hwaiters⟩ := queries_run lib s config logins
    refine ⟨fun i q hi hst => ?_, fun hne => absurd (hwaiters.trans hs.1) hne⟩
    rw [hqueries] at hi
    exact absurd ⟨q, hi, by rw [hst]; rfl⟩ (hs.2 i)
  | begin =>
    have hrun' : s.isRun = true := hrun'
    rw [hrun] at hrun'
    cases hrun'
  | wait hi hst | null hi hst | take hi hst | prepared hi hst | prepareFailed hi hst | exec hi hst
  | freeNull hi hst | free hi hst | notifyNone hi hst | notify hi hst | spurious hi hst =>
    exact absurd ⟨_, hi, by rw [hst]; rfl⟩ (hs.2 _)

theorem run_woken {s : Postgres S} {acts : List Action}
    (hrun : (step lib gen).run init acts = some s) : s.isRun = true → s.Woken 0 := by
  refine (Machine.run_invariant (I := fun s => (s.isRun = false → s.Idle) ∧
    (s.isRun = true → s.Woken 0)) ?_ ⟨fun _ => ⟨rfl, fun _ ⟨_, hi, _⟩ => by cases hi⟩, nofun⟩
    hrun).2
  rintro s a t ⟨hidle, hwoken⟩ ht
  have hmoves := step_moves ht
  refine ⟨hmoves.idle hidle, fun hrun' => ?_⟩
  cases hs : s.isRun with
  | true => exact hmoves.woken hs (hwoken hs)
  | false => exact hmoves.woken_of_idle hs (hidle hs) hrun'

/-- A query that is not blocked can go on. -/
theorem exists_continues {s : Postgres S} (hkept : s.PoolKept) (hwaits : s.Waits) {i : Nat}
    (hi : s.InFlight i) (hblocked : ¬ s.Blocked i) :
    ∃ a, Action.continues a ∧ step lib gen s a ≠ none := by
  obtain ⟨⟨query, params, stage⟩, hq, hret⟩ := hi
  have hheld : ∀ c, stage.held = some c → ∃ a, Action.continues a ∧ step lib gen s a ≠ none := by
    intro c hc
    have hholds : s.Holds i c := ⟨_, hq, hc⟩
    have hgoes : s.GoesOn lib gen i := goesOn_of_holds hholds (lt_of_holds hkept hholds)
    rcases hgoes with hprepare | hexec | hfree
    · exact ⟨.prepare i none, rfl, Option.isSome_iff_ne_none.mp (hprepare none)⟩
    · exact ⟨.exec i none, rfl, Option.isSome_iff_ne_none.mp (hexec none)⟩
    · exact ⟨.freeConnection i, rfl, Option.isSome_iff_ne_none.mp hfree⟩
  cases stage with
  | getConnection =>
    refine ⟨.getConnection i, rfl, ?_⟩
    rw [step, getConnection, hq]
    cases hp : s.poolConn with
    | nil => exact absurd ⟨_, hq, .inr ⟨rfl, hp⟩⟩ hblocked
    | cons p rest =>
      cases p with
      | none => simp
      | some c =>
        have hfree : some c ∈ s.poolConn := hp ▸ List.mem_cons_self
        have hstock := (hkept.stock (some c)).mpr (.inl hfree)
        have hlt : c < s.connections.length := by simpa [stock] using hstock
        simp [hlt]
  | waiting => exact absurd ⟨_, hq, .inl rfl⟩ hblocked
  | prepare c | exec c => exact hheld c rfl
  | destructor p out =>
    cases p with
    | none => exact ⟨.freeConnection i, rfl, by simp [step, freeConnection, hq]⟩
    | some c => exact hheld c rfl
  | notify out =>
    cases hw : s.waiters with
    | nil => exact ⟨.notify i none, rfl, by simp [step, notify, hq, hw, Postgres.setStage]⟩
    | cons j rest =>
      -- the one in front of the list can be woken
      obtain ⟨⟨query', params', stage'⟩, hj, hst⟩ := hwaits.waiting j (hw ▸ List.mem_cons_self)
      obtain rfl : stage' = .waiting := hst
      have hji : j ≠ i := by
        rintro rfl
        rw [hq] at hj
        cases hj
      refine ⟨.notify i (some j), rfl, ?_⟩
      simp [step, notify, hq, wake, setStage_queries, hji, hj]
  | returned out => cases hret

/-- Where no query is in flight the pool holds every connection. -/
theorem PoolKept.perm_stock {s : Postgres S} (hs : s.PoolKept) (hidle : ∀ i, ¬ s.InFlight i) :
    s.poolConn.Perm s.stock := by
  refine hs.perm (List.Nodup.map (Option.some_injective _) List.nodup_range) fun i => ?_
  cases hi : s.lending.lent i with
  | none => rfl
  | some p =>
    obtain ⟨q, hq, hheld⟩ := Option.bind_eq_some_iff.mp hi
    refine absurd ⟨q, hq, ?_⟩ (hidle i)
    cases hst : q.stage with
    | returned =>
      rw [hst] at hheld
      cases hheld
    | _ => rfl

/-- Queries that go on make no connection. -/
theorem run_continues {s t : Postgres S} {more : List Action} (hs : s.PoolKept)
    (hcontinues : ∀ a ∈ more, Action.continues a) (hmore : (step lib gen).run s more = some t) :
    t.PoolKept ∧ t.connections.length = s.connections.length := by
  refine Machine.run_history (I := fun _ t => t.PoolKept ∧
    t.connections.length = s.connections.length) ?_ ⟨hs, rfl⟩ hcontinues hmore
  rintro _ u a v ⟨hu, hlength⟩ ha hv
  refine ⟨step_kept hu hv, ?_⟩
  rcases step_lends hu.null hv with ⟨config, logins, rfl, -⟩ | hlends
  · cases ha
  · exact hlends.same.connections.trans hlength

/-- Queries that are left to themselves make at most six steps each, in whichever order they go on
and whatever `libpq` answers; when none of them can go on, each has returned and the pool holds
all connections. -/
theorem settles {acts more : List Action} {s t : Postgres S} {I : Finset Nat}
    (hrun : (step lib gen).run init acts = some s) (hconnections : s.connections ≠ [])
    (hI : ∀ i, s.InFlight i → i ∈ I) (hcontinues : ∀ a ∈ more, Action.continues a)
    (hmore : (step lib gen).run s more = some t) :
    more.length ≤ 6 * I.card ∧
      ((∀ a, Action.continues a → step lib gen t a = none) →
        (∀ i, ¬ t.InFlight i) ∧
          t.poolConn.Perm ((List.range s.connections.length).map some)) := by
  obtain ⟨-, hlength⟩ := Machine.length_add_le (I := Within I) (P := fun a => Action.continues a)
    (fun _ _ _ hs ha ht => (step_moves ht).work_lt hs ha) hI hcontinues hmore
  have hwork := work_le I s
  refine ⟨by omega, fun hdone => ?_⟩
  obtain ⟨hkept, hsame⟩ := run_continues (run_poolKept hrun) hcontinues hmore
  have ht : (step lib gen).run init (acts ++ more) = some t := by
    rw [Machine.run_append, hrun]
    exact hmore
  have hidle : ∀ i, ¬ t.InFlight i := by
    intro i hi
    cases hisRun : t.isRun with
    | false => exact (run_idle ht hisRun).2 i hi
    | true =>
      have hpos : 0 < t.connections.length := hsame ▸ List.length_pos_iff.mpr hconnections
      -- a query that is still in flight would leave one that can go on
      have hnever : t.NeverStuck lib gen := neverStuck_of_kept hkept (run_woken ht hisRun) hpos
      obtain ⟨j, hj, hblocked⟩ := hnever.2 ⟨i, hi⟩
      obtain ⟨a, ha, hstep⟩ := exists_continues hkept (run_waits ht) hj hblocked
      exact hstep (hdone a ha)
  refine ⟨hidle, ?_⟩
  rw [← hsame]
  exact hkept.perm_stock hidle

/-- What `oneQuery` has left to do where `PQprepare` fails. -/
def oneFailure : List Action := [.prepare 0 none, .freeConnection 0, .notify 0 none]

theorem settles_oneFailure : ∃ s t,
    (step statements selectUuid).run init (startOne ++ oneQuery) = some s ∧
    (step statements selectUuid).run s oneFailure = some t ∧ ∀ i, ¬ t.InFlight i := by
  have hrun : (step statements selectUuid).run init (startOne ++ oneQuery) = some _ := rfl
  refine ⟨_, _, hrun, rfl, ((settles (I := {0}) hrun (by exact nofun) ?_ ?_
    (rfl : (step statements selectUuid).run _ oneFailure = some _)).2 ?_).1⟩
  · rintro i ⟨q, hq, -⟩
    cases i with
    | zero => decide
    | succ i => cases hq
  · decide
  · intro a ha
    cases a with
    | run | begin | spurious => cases ha
    | getConnection i | prepare i | exec i | freeConnection i | notify i => cases i <;> rfl

end Postgres

end FHT.DBFacade
