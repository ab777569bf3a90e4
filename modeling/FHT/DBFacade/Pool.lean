import FHT.DBFacade.Postgres
import FHT.Lib.Lending

/-!
# The connection pool

Every connection is in the pool or held by one query. A query takes a connection when it leaves
`getConnection` and gives it back in `~Connection`, which every way out of `query_private` passes.

## Main results

- `Postgres.step_lends` — what a step does to the pool
- `Postgres.pool_conserved` — every connection is in one place, and in the pool where no query
  is in flight
-/

namespace FHT.DBFacade

/-- The connection that a call holds. -/
def Stage.held : Stage → PtrConnection
  | .prepare c | .exec c | .destructor (some c) _ => some c
  | .destructor none _ | .getConnection | .waiting | .notify _ | .returned _ => none

def Stage.isReturned : Stage → Bool
  | .returned _ => true
  | _ => false

namespace Postgres

variable {S : Type*}

/-- The query `i` holds the connection `c`. -/
def Holds (s : Postgres S) (i c : Nat) : Prop :=
  ∃ q, s.queries i = some q ∧ q.stage.held = some c

/-- The query `i` has been called and has not returned. -/
def InFlight (s : Postgres S) (i : Nat) : Prop :=
  ∃ q, s.queries i = some q ∧ q.stage.isReturned = false

/-- The pool as items that are lent. -/
def lending (s : Postgres S) : Lending Nat PtrConnection :=
  ⟨s.poolConn, fun i => (s.queries i).bind fun q => q.stage.held.map some⟩

/-- Pointers to all connections. -/
def stock (s : Postgres S) : List PtrConnection := (List.range s.connections.length).map some

theorem lent_eq_some_iff {s : Postgres S} {i c : Nat} :
    s.lending.lent i = some (some c) ↔ s.Holds i c := by
  simp [lending, Holds, Option.bind_eq_some_iff]

theorem lent_of_query {s : Postgres S} {i : Nat} {q : Query} (h : s.queries i = some q) :
    s.lending.lent i = q.stage.held.map some := by
  simp [lending, h]

theorem lending_setStage (s : Postgres S) (i : Nat) (q : Query) (stage : Stage) :
    (s.setStage i q stage).lending =
      ⟨s.poolConn, Function.update s.lending.lent i (stage.held.map some)⟩ := by
  refine congrArg (Lending.mk s.poolConn) ?_
  funext j
  by_cases hj : j = i
  · subst hj
    simp [setStage]
  · simp [setStage, lending, hj]

/-- A stage with the same connection changes nothing. -/
theorem lending_setStage_of_held {s : Postgres S} {i : Nat} {q q' : Query} {stage : Stage}
    (h : s.queries i = some q) (hheld : stage.held = q.stage.held) :
    (s.setStage i q' stage).lending = s.lending := by
  rw [lending_setStage, hheld, ← lent_of_query h, Function.update_eq_self]
  rfl

/-- No connection is made, and the facade runs or does not as before. -/
structure Same (s s' : Postgres S) : Prop where
  connections : s'.connections.length = s.connections.length
  isRun : s'.isRun = s.isRun

/-- What a step of a query does to the pool. -/
inductive Lends (s s' : Postgres S) : Prop
  | keep (hl : s'.lending = s.lending) (hs : s.Same s')
  | take {i c rest} (hp : s.poolConn = c :: rest) (hi : s.lending.lent i = none)
      (hl : s'.lending = s.lending.take i c rest) (hs : s.Same s')
  | giveBack {i c} (hi : s.lending.lent i = some c) (hl : s'.lending = s.lending.giveBack i c)
      (hs : s.Same s')

variable {lib : Libpq S} {gen : Str → Str}

theorem length_setConnection (s : Postgres S) (c : Nat) (connection : PostgresConnection S) :
    (s.setConnection c connection).connections.length = s.connections.length :=
  List.length_set

/-- A step at which a query uses the connection that it holds. -/
theorem lends_of_use {s : Postgres S} {i c : Nat} {q q' : Query} {stage : Stage}
    {connection : PostgresConnection S} (h : s.queries i = some q)
    (hheld : stage.held = q.stage.held) :
    s.Lends ((s.setConnection c connection).setStage i q' stage) :=
  .keep (lending_setStage_of_held (s := s.setConnection c connection) h hheld)
    ⟨length_setConnection s c connection, rfl⟩

/-- Every connection is in one place. -/
def PoolKept (s : Postgres S) : Prop := s.lending.Kept s.stock

theorem Lends.kept {s s' : Postgres S} (h : s.Lends s') (hs : s.PoolKept) : s'.PoolKept := by
  have hstock : s.Same s' → s'.stock = s.stock := by
    intro hsame
    rw [stock, stock, hsame.connections]
  cases h with
  | keep hl hsame =>
    rw [PoolKept, hl, hstock hsame]
    exact hs
  | take hp hi hl hsame =>
    rw [PoolKept, hl, hstock hsame]
    exact Lending.Kept.take hs hp hi
  | giveBack hi hl hsame =>
    rw [PoolKept, hl, hstock hsame]
    exact Lending.Kept.giveBack hs hi

theorem Lends.same {s s' : Postgres S} (h : s.Lends s') : s.Same s' := by
  cases h with
  | keep _ hsame | take _ _ _ hsame | giveBack _ _ hsame => exact hsame

theorem PoolKept.null {s : Postgres S} (h : s.PoolKept) : none ∉ s.poolConn := by
  intro hmem
  have hstock := (h.stock none).mpr (.inl hmem)
  simp [stock] at hstock

/-- The loop of `run` puts new connections into the pool, as far as it comes. -/
theorem emplaceConnections_kept {config : Configuration} {logins : List Login}
    {s s' : Postgres S} {e : Option Thrown} (hs : s.PoolKept)
    (h : s.emplaceConnections lib config logins = (s', e)) : s'.PoolKept := by
  induction logins generalizing s with
  | nil =>
    obtain rfl : s = s' := congrArg Prod.fst h
    exact hs
  | cons l logins ih =>
    rw [emplaceConnections] at h
    split at h
    · obtain rfl : s = s' := congrArg Prod.fst h
      exact hs
    · next connection hmake =>
      refine ih ?_ h
      have hnew : some s.connections.length ∉ s.stock := by simp [stock]
      have hstock : stock { s with
          poolConn := s.poolConn ++ [some s.connections.length]
          connections := s.connections ++ [connection] } =
          s.stock ++ [some s.connections.length] := by
        simp [stock, List.range_succ]
      rw [PoolKept, hstock]
      exact Lending.Kept.add hs hnew

theorem run_kept {s : Postgres S} (hs : s.PoolKept) (config : Configuration)
    (logins : Nat → Login) : (s.run lib config logins).1.PoolKept := by
  rw [run]
  split
  · exact hs
  · split
    · next h => exact emplaceConnections_kept hs h
    · next s' h =>
      have hkept : s'.PoolKept := emplaceConnections_kept hs h
      exact hkept

/-- A step is a start, or a step of a query. -/
theorem step_lends {s s' : Postgres S} {a : Action} (hnull : none ∉ s.poolConn)
    (h : step lib gen s a = some s') :
    (∃ config logins, a = .run config logins ∧ s' = (s.run lib config logins).1) ∨ s.Lends s' := by
  cases step_moves h with
  | run => exact .inl ⟨_, _, rfl, rfl⟩
  | @begin i query param hi =>
    refine .inr (.keep ?_ ⟨rfl, rfl⟩)
    have hnone : s.lending.lent i = none := by simp [lending, hi]
    have hheld : (if s.isRun then Stage.getConnection
        else .returned (.error (.cString "iPostgres not runing!".toList))).held = none := by
      split <;> rfl
    rw [lending_setStage, hheld, Option.map_none, ← hnone, Function.update_eq_self]
    rfl
  | wait hi hst hp =>
    exact .inr (.keep (lending_setStage_of_held hi (by rw [hst]; rfl)) ⟨rfl, rfl⟩)
  | null hi hst hp =>
    -- the pool holds no null pointer
    rw [hp] at hnull
    exact absurd List.mem_cons_self hnull
  | take hi hst hp hc =>
    refine .inr (.take hp ((lent_of_query hi).trans (by rw [hst]; rfl)) ?_ ⟨rfl, rfl⟩)
    rw [lending_setStage]
    split <;> rfl
  | prepared hi hst | prepareFailed hi hst | exec hi hst =>
    exact .inr (lends_of_use hi (by rw [hst]; rfl))
  | freeNull hi hst | notifyNone hi hst =>
    exact .inr (.keep (lending_setStage_of_held hi (by rw [hst]; rfl)) ⟨rfl, rfl⟩)
  | free hi hst =>
    refine .inr (.giveBack ((lent_of_query hi).trans (by rw [hst]; rfl)) ?_ ⟨rfl, rfl⟩)
    rw [lending_setStage]
    rfl
  | @notify i j q q' out hi hst hji hj hst' =>
    have hreturned : (s.setStage i q (.returned out)).lending = s.lending :=
      lending_setStage_of_held hi (by rw [hst]; rfl)
    have hj : (s.setStage i q (.returned out)).queries j = some q' :=
      (setStage_queries ..).trans ((if_neg hji).trans hj)
    exact .inr (.keep ((lending_setStage_of_held hj (by rw [hst']; rfl)).trans hreturned)
      ⟨rfl, rfl⟩)
  | spurious hi hst =>
    exact .inr (.keep (lending_setStage_of_held hi (by rw [hst]; rfl)) ⟨rfl, rfl⟩)

theorem step_kept {s s' : Postgres S} {a : Action} (hs : s.PoolKept)
    (h : step lib gen s a = some s') : s'.PoolKept := by
  rcases step_lends hs.null h with ⟨config, logins, -, rfl⟩ | hlends
  · exact run_kept hs config logins
  · exact hlends.kept hs

theorem init_kept : (init : Postgres S).PoolKept := Lending.kept_empty

theorem run_poolKept {s : Postgres S} {acts : List Action}
    (hrun : (step lib gen).run init acts = some s) : s.PoolKept :=
  Machine.run_invariant (I := PoolKept) (fun _ _ _ hu ht => step_kept hu ht) init_kept hrun

/-- A facade that runs makes no connection. -/
theorem step_same {s s' : Postgres S} {a : Action} (hs : s.PoolKept) (hrun : s.isRun = true)
    (h : step lib gen s a = some s') : s.Same s' := by
  rcases step_lends hs.null h with ⟨config, logins, -, rfl⟩ | hlends
  · rw [run, if_pos hrun]
    exact ⟨rfl, rfl⟩
  · exact hlends.same

theorem run_same {s s' : Postgres S} {acts : List Action} (hs : s.PoolKept)
    (hrun : s.isRun = true) (h : (step lib gen).run s acts = some s') : s.Same s' := by
  refine (Machine.run_invariant (I := fun t => t.PoolKept ∧ s.Same t) ?_ ⟨hs, rfl, rfl⟩ h).2
  rintro t a v ⟨hkept, hsame⟩ ht
  have hnext := step_same hkept (hsame.isRun.trans hrun) ht
  exact ⟨step_kept hkept ht, hnext.connections.trans hsame.connections,
    hnext.isRun.trans hsame.isRun⟩

/-- Each of the `n` connections with which the facade runs is in the pool, once, or held by one
query, for any number of queries and however each of their steps ends; and they are all in the
pool where no query is in flight. -/
theorem pool_conserved {before acts : List Action} {u s : Postgres S}
    (hbefore : (step lib gen).run init before = some u) (hrunning : u.isRun = true)
    (hacts : (step lib gen).run u acts = some s) :
    (∀ c < u.connections.length,
      (s.poolConn.count (some c) = 1 ∧ ∀ i, ¬ s.Holds i c) ∨
      (some c ∉ s.poolConn ∧ ∃! i, s.Holds i c)) ∧
    ((∀ i, ¬ s.InFlight i) →
      s.poolConn.Perm ((List.range u.connections.length).map some)) := by
  have hu := run_poolKept hbefore
  have hs : s.PoolKept := Machine.run_invariant (I := PoolKept)
    (fun _ _ _ hv ht => step_kept hv ht) hu hacts
  have hsame := run_same hu hrunning hacts
  refine ⟨?_, ?_⟩
  · intro c hc
    have hstock : some c ∈ s.stock := by simpa [stock, hsame.connections] using hc
    rcases (hs.stock (some c)).mp hstock with hfree | ⟨i, hi⟩
    · refine .inl ⟨List.count_eq_one_of_mem hs.nodup hfree, ?_⟩
      intro i hi
      exact hs.apart i (some c) (lent_eq_some_iff.mpr hi) hfree
    · refine .inr ⟨hs.apart i (some c) hi, i, lent_eq_some_iff.mp hi, ?_⟩
      intro j hj
      exact hs.alone j i (some c) (lent_eq_some_iff.mpr hj) hi
  · intro hidle
    have hnone : ∀ i, s.lending.lent i = none := by
      intro i
      cases hi : s.queries i with
      | none => simp [lending, hi]
      | some q =>
        have hret : q.stage.isReturned = true := by
          by_contra hne
          exact hidle i ⟨q, hi, by simpa using hne⟩
        rw [lent_of_query hi]
        cases hst : q.stage with
        | returned out => rfl
        | _ =>
          rw [hst] at hret
          cases hret
    have hperm := hs.perm (List.Nodup.map (Option.some_injective _) List.nodup_range) hnone
    rwa [stock, hsame.connections] at hperm

/-- Sessions that are their prepared statements. -/
def statements : Libpq (Str → Option Str) where
  login _ := fun _ => none
  prepare s stmtName query res :=
    if res.any (fun r => r.status = .PGRES_COMMAND_OK) then
      Function.update s stmtName (some query)
    else s
  execPrepared s _ _ _ := s
  prepared s stmtName := s stmtName

/-- The result of a `PQprepare` that succeeds. -/
def commandOk : PGresult := ⟨.PGRES_COMMAND_OK, [], [], [], fun _ h => absurd h List.not_mem_nil⟩

/-- The name-based uuid of the text below. -/
def selectUuid (_ : Str) : Str := "221294d5-c3bb-5128-a1e0-e57ab1633a5b".toList

/-- One connection, and a query that takes it. -/
def oneQuery : List Action := [.begin 0 "SELECT 1".toList [], .getConnection 0]

def startOne : List Action :=
  [.run ⟨"h".toList, "n".toList, "u".toList, "p".toList, 5432, 1⟩ fun _ => ⟨true, true, []⟩]

/-- The `PQprepare` of this query fails, and a second one, which has waited, takes the
connection. -/
def secondTakes : List Action := oneQuery ++
  [.begin 1 "SELECT 1".toList [], .getConnection 1, .prepare 0 none, .freeConnection 0,
    .notify 0 (some 1), .getConnection 1]

/-- It is prepared and executed in its turn. -/
def secondEnds : List Action :=
  [.prepare 1 (some commandOk), .exec 1 none, .freeConnection 1, .notify 1 none]

theorem pool_conserved_twoQueries :
    ∃ u s t, (step statements selectUuid).run init startOne = some u ∧ u.isRun = true ∧
      u.connections.length = 1 ∧ (step statements selectUuid).run u secondTakes = some s ∧
      (∀ c < 1, (s.poolConn.count (some c) = 1 ∧ ∀ i, ¬ s.Holds i c) ∨
        (some c ∉ s.poolConn ∧ ∃! i, s.Holds i c)) ∧
      (step statements selectUuid).run u (secondTakes ++ secondEnds) = some t ∧
      t.poolConn.Perm ((List.range 1).map some) := by
  have hbefore : (step statements selectUuid).run init startOne = some _ := rfl
  refine ⟨_, _, _, hbefore, rfl, rfl, rfl, ?_, rfl, ?_⟩
  · exact (pool_conserved hbefore rfl
      (rfl : (step statements selectUuid).run _ secondTakes = some _)).1
  · refine (pool_conserved hbefore rfl
      (rfl : (step statements selectUuid).run _ (secondTakes ++ secondEnds) = some _)).2 ?_
    rintro i ⟨q, hq, hne⟩
    match i with
    | 0 | 1 =>
      obtain rfl := Option.some.inj hq
      cases hne
    | i + 2 => cases hq

end Postgres

end FHT.DBFacade
