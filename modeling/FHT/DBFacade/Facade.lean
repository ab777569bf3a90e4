import FHT.DBFacade.Postgres

/-!
# Starts of the facade

`dbFacade` stores a configuration until a start moves it to `Postgres::run`, which fills the pool
one connection at a time. An exception on the way leaves the connections made so far in the pool
and the configuration is gone.

## Main definitions

- `DbFacade` — the members of `dbFacade`

## Main results

- `Postgres.run_of_connects`, `Postgres.run_of_not_connects` — what a start does
- `failedStart_iff` — when a failed start changes nothing, and when failed starts do not show
-/

namespace FHT.DBFacade

variable {S : Type*} (lib : Libpq S)

/-- An attempt to connect succeeds. -/
def connects (config : Configuration) (l : Login) : Bool :=
  config.host ≠ [] ∧ config.name ≠ [] ∧ config.user ≠ [] ∧ config.pass ≠ [] ∧
    (l.statusOk ∨ l.nonblocking)

/-- A new connection of the configuration. -/
def fresh (config : Configuration) : PostgresConnection S := ⟨lib.login config, ∅⟩

theorem make_of_connects {config : Configuration} {l : Login} (h : connects config l) :
    PostgresConnection.make lib config l = .ok (fresh lib config) := by
  obtain ⟨hhost, hname, huser, hpass, hok⟩ := of_decide_eq_true h
  have hlogin : (!l.statusOk && !l.nonblocking) = false := by
    cases hok with
    | inl hs => simp [hs]
    | inr hn => simp [hn]
  rw [PostgresConnection.make, if_pos ⟨hhost, hname, huser, hpass⟩, hlogin]
  rfl

theorem make_of_not_connects {config : Configuration} {l : Login}
    (h : connects config l = false) : ∃ e, PostgresConnection.make lib config l = .error e := by
  rw [PostgresConnection.make]
  split
  · next hset =>
    have hlogin : (!l.statusOk && !l.nonblocking) = true := by
      have hno : ¬ (l.statusOk ∨ l.nonblocking) := fun hok =>
        of_decide_eq_false h ⟨hset.1, hset.2.1, hset.2.2.1, hset.2.2.2, hok⟩
      simpa using hno
    exact ⟨_, by rw [hlogin]; rfl⟩
  · exact ⟨_, rfl⟩

/-- What the constructor throws is an exception. -/
theorem isException_of_make {config : Configuration} {l : Login} {e : Thrown}
    (h : PostgresConnection.make lib config l = .error e) : e.isException = true := by
  rw [PostgresConnection.make] at h
  split at h
  · split at h <;> cases h
    rfl
  · cases h
    rfl

namespace Postgres

/-- The pool and the connections with `k` more of the configuration. -/
def added (config : Configuration) (k : Nat) (s : Postgres S) : Postgres S :=
  { s with
    poolConn := s.poolConn ++ (List.range' s.connections.length k).map some
    connections := s.connections ++ List.replicate k (fresh lib config) }

/-- The loop makes a connection for each attempt before the first that fails. -/
theorem emplaceConnections_eq (config : Configuration) (logins : List Login) (s : Postgres S) :
    (s.emplaceConnections lib config logins).1 =
        s.added lib config (logins.takeWhile (connects config)).length ∧
      ((s.emplaceConnections lib config logins).2 = none ↔ ∀ l ∈ logins, connects config l) := by
  induction logins generalizing s with
  | nil => simp [emplaceConnections, added]
  | cons l logins ih =>
    rw [emplaceConnections]
    cases hl : connects config l with
    | false =>
      obtain ⟨e, he⟩ := make_of_not_connects lib hl
      simp [he, hl, added]
    | true =>
      rw [make_of_connects lib hl]
      obtain ⟨hstate, herror⟩ := ih { s with
        poolConn := s.poolConn ++ [some s.connections.length]
        connections := s.connections ++ [fresh lib config] }
      constructor
      · refine hstate.trans ?_
        simp [added, hl, List.range'_succ, List.replicate_succ]
      · simpa [hl] using herror

/-- A start with an attempt that fails keeps the connections made before it. -/
theorem run_of_not_connects {s : Postgres S} (h : s.isRun = false) {config : Configuration}
    {logins : Nat → Login} (hno : ¬ ∀ i < config.worker.toNat, connects config (logins i)) :
    ∃ e, s.run lib config logins = (s.added lib config
      (((List.range config.worker.toNat).map logins).takeWhile (connects config)).length,
        .error e) := by
  obtain ⟨hstate, herror⟩ :=
    emplaceConnections_eq lib config ((List.range config.worker.toNat).map logins) s
  have hlogins : ¬ ∀ l ∈ (List.range config.worker.toNat).map logins, connects config l := by
    simpa using hno
  obtain ⟨e, he⟩ := Option.ne_none_iff_exists'.mp (mt herror.mp hlogins)
  have hpair : s.emplaceConnections lib config ((List.range config.worker.toNat).map logins) =
      (s.added lib config
        (((List.range config.worker.toNat).map logins).takeWhile (connects config)).length,
        some e) := Prod.ext hstate he
  exact ⟨_, by rw [run, h, hpair]; rfl⟩

theorem isException_of_emplaceConnections {config : Configuration} {logins : List Login}
    {s : Postgres S} {e : Thrown} (h : (s.emplaceConnections lib config logins).2 = some e) :
    e.isException = true := by
  induction logins generalizing s with
  | nil => cases h
  | cons l logins ih =>
    rw [emplaceConnections] at h
    split at h
    · next hmake =>
      obtain rfl := Option.some.inj h
      exact isException_of_make lib hmake
    · exact ih h

/-- So is what a start throws of a facade that does not run. -/
theorem isException_of_run {s : Postgres S} (hs : s.isRun = false) {config : Configuration}
    {logins : Nat → Login} {e : Thrown} (h : (s.run lib config logins).2 = .error e) :
    e.isException = true := by
  rw [run, hs] at h
  split at h
  · contradiction
  · split at h
    · next hloop =>
      have hthrown := isException_of_emplaceConnections lib (congrArg Prod.snd hloop)
      rw [if_pos hthrown] at h
      obtain rfl := Except.error.inj h
      rfl
    · cases h

variable {lib}

theorem run_of_isRun {s : Postgres S} (h : s.isRun = true) (config : Configuration)
    (logins : Nat → Login) :
    s.run lib config logins = (s, .error (.cString "Postgres runing!".toList)) := by
  rw [run, if_pos h]

/-- A start whose attempts all succeed. -/
theorem run_of_connects {s : Postgres S} (h : s.isRun = false) {config : Configuration}
    {logins : Nat → Login} (hall : ∀ i < config.worker.toNat, connects config (logins i)) :
    s.run lib config logins =
      ({ s.added lib config config.worker.toNat with isRun := true }, .ok true) := by
  have hlogins : ∀ l ∈ (List.range config.worker.toNat).map logins, connects config l := by
    simpa using hall
  obtain ⟨hstate, herror⟩ :=
    emplaceConnections_eq lib config ((List.range config.worker.toNat).map logins) s
  rw [List.takeWhile_eq_self_iff.mpr hlogins, List.length_map, List.length_range] at hstate
  have hpair : s.emplaceConnections lib config ((List.range config.worker.toNat).map logins) =
      (s.added lib config config.worker.toNat, none) := Prod.ext hstate (herror.mpr hlogins)
  rw [run, h, hpair]
  rfl

end Postgres

/-- The members `m_config_ptr` and `db_ptr`. -/
structure DbFacade (S : Type*) where
  config : Option Configuration
  db : Postgres S

namespace DbFacade

def init : DbFacade S := ⟨none, .init⟩

def setConfiguration (f : DbFacade S) (arg : Configuration) : DbFacade S :=
  { f with config := some arg }

/-- `dbFacade::run`: the configuration is moved into the call. -/
def run (f : DbFacade S) (logins : Nat → Login) : DbFacade S × Except Thrown Bool :=
  match f.config with
  | none => (f, .ok false)
  | some config =>
    let (db, res) := f.db.run lib config logins
    (⟨none, db⟩, res)

/-- The calls on the facade. -/
inductive Action
  | setConfiguration (arg : Configuration)
  | run (logins : Nat → Login)

def step : Machine (DbFacade S) Action
  | f, .setConfiguration arg => some (f.setConfiguration arg)
  | f, .run logins => some (f.run lib logins).1

/-- If the start ends with an exception, nothing has changed. -/
def FailsClean (f : DbFacade S) (logins : Nat → Login) : Prop :=
  ∀ e, (f.run lib logins).2 = .error e →
    (f.run lib logins).1.db.poolConn = f.db.poolConn ∧
    (f.run lib logins).1.db.isRun = f.db.isRun ∧
    (f.run lib logins).1.config = f.config

/-- There is no configuration to start with, or the facade does not run yet and every attempt of
the configuration succeeds. -/
def NothingFails (f : DbFacade S) (logins : Nat → Login) : Prop :=
  ∀ config, f.config = some config →
    f.db.isRun = false ∧ ∀ i < config.worker.toNat, connects config (logins i)

/-- The start, if it is one, does not succeed. -/
def NoStart (f : DbFacade S) : Action → Prop
  | .setConfiguration _ => True
  | .run logins => (f.run lib logins).2 ≠ .ok true

/-- The first attempt of the start fails already. -/
def FailsAtOnce (f : DbFacade S) : Action → Prop
  | .setConfiguration _ => True
  | .run logins => ∀ config, f.config = some config → connects config (logins 0) = false

/-- The pool holds as many connections as the configuration says, each of the configuration. -/
def PoolOf (config : Configuration) (s : Postgres S) : Prop :=
  s.poolConn.length = config.worker.toNat ∧
    ∀ p ∈ s.poolConn, ∃ c, p = some c ∧ s.connections[c]? = some (fresh lib config)

variable {lib}

theorem run_of_config {f : DbFacade S} {config : Configuration} (h : f.config = some config)
    (logins : Nat → Login) : f.run lib logins =
      (⟨none, (f.db.run lib config logins).1⟩, (f.db.run lib config logins).2) := by
  rw [run, h]

theorem run_of_no_config {f : DbFacade S} (h : f.config = none) (logins : Nat → Login) :
    f.run lib logins = (f, .ok false) := by
  rw [run, h]

/-- The configuration does not survive an exception, so that nothing may fail. -/
theorem failsClean_iff (f : DbFacade S) (logins : Nat → Login) :
    FailsClean lib f logins ↔ NothingFails f logins := by
  cases hconfig : f.config with
  | none => simp [FailsClean, NothingFails, run_of_no_config hconfig, hconfig]
  | some config =>
    simp only [FailsClean, NothingFails, run_of_config hconfig, hconfig, Option.some.injEq,
      forall_eq']
    cases hrun : f.db.isRun with
    | true => simp [Postgres.run_of_isRun hrun]
    | false =>
      by_cases hall : ∀ i < config.worker.toNat, connects config (logins i)
      · simpa [Postgres.run_of_connects hrun hall] using hall
      · obtain ⟨e, he⟩ := Postgres.run_of_not_connects lib hrun hall
        simpa [he] using hall

/-- A start that does not succeed leaves the facade not running, and its pool empty exactly if
its first attempt failed. -/
theorem step_noStart {f g : DbFacade S} {a : Action} (hrun : f.db.isRun = false)
    (hstep : step lib f a = some g) (hno : NoStart lib f a) :
    g.db.isRun = false ∧ (g.db.poolConn = [] ↔ f.db.poolConn = [] ∧ FailsAtOnce f a) := by
  cases a with
  | setConfiguration arg =>
    obtain rfl := Option.some.inj hstep
    exact ⟨hrun, by simp [setConfiguration, FailsAtOnce]⟩
  | run logins =>
    obtain rfl := Option.some.inj hstep
    cases hconfig : f.config with
    | none => simp [run_of_no_config hconfig, hrun, FailsAtOnce, hconfig]
    | some config =>
      have hno : ¬ ∀ i < config.worker.toNat, connects config (logins i) := by
        intro hall
        refine hno ?_
        rw [run_of_config hconfig, Postgres.run_of_connects hrun hall]
      obtain ⟨e, he⟩ := Postgres.run_of_not_connects lib hrun hno
      rw [run_of_config hconfig, he]
      refine ⟨hrun, ?_⟩
      -- some attempt was made
      obtain ⟨n, hn⟩ : ∃ n, config.worker.toNat = n + 1 := by
        refine Nat.exists_eq_succ_of_ne_zero fun hzero => hno ?_
        simp [hzero]
      simp only [Postgres.added, FailsAtOnce, hconfig, hn, List.range_succ_eq_map, List.map_cons]
      cases hfirst : connects config (logins 0) with
      | false => simp [hfirst]
      | true => simp [hfirst, List.range'_succ]

/-- A run without a start that succeeds. -/
theorem run_noStart {f g : DbFacade S} {acts : List Action} (hrun : f.db.isRun = false)
    (hg : (step lib).run f acts = some g)
    (hno : (step lib).Along (fun f a _ => NoStart lib f a) f acts) :
    g.db.isRun = false ∧ (g.db.poolConn = [] ↔
      f.db.poolConn = [] ∧ (step lib).Along (fun f a _ => FailsAtOnce f a) f acts) := by
  induction acts generalizing f with
  | nil =>
    obtain rfl : f = g := by simpa using hg
    simp [hrun]
  | cons a acts ih =>
    obtain ⟨u, hu, hg⟩ := Machine.run_cons_eq_some.mp hg
    obtain ⟨hno, hrest⟩ := (Machine.along_cons_of_step hu).mp hno
    obtain ⟨hurun, hpool⟩ := step_noStart hrun hu hno
    obtain ⟨hgrun, hgpool⟩ := ih hurun hg hrest
    refine ⟨hgrun, ?_⟩
    rw [hgpool, hpool, Machine.along_cons_of_step hu, and_assoc]

/-- After a start that succeeds the pool holds the configuration's connections exactly if it was
empty. -/
theorem poolOf_iff {f : DbFacade S} {config : Configuration} {logins : Nat → Login}
    (hrun : f.db.isRun = false) (hconfig : f.config = some config)
    (hok : (f.run lib logins).2 = .ok true) :
    PoolOf lib config (f.run lib logins).1.db ↔ f.db.poolConn = [] := by
  have hall : ∀ i < config.worker.toNat, connects config (logins i) := by
    by_contra hno
    obtain ⟨e, he⟩ := Postgres.run_of_not_connects lib hrun hno
    rw [run_of_config hconfig, he] at hok
    cases hok
  rw [run_of_config hconfig, Postgres.run_of_connects hrun hall]
  constructor
  · rintro ⟨hlength, _⟩
    have hlength : f.db.poolConn.length + config.worker.toNat = config.worker.toNat := by
      simpa [Postgres.added] using hlength
    exact List.length_eq_zero_iff.mp (by omega)
  · intro hempty
    refine ⟨by simp [Postgres.added, hempty], fun p hp => ?_⟩
    have hp : p ∈ (List.range' f.db.connections.length config.worker.toNat).map some := by
      simpa [Postgres.added, hempty] using hp
    obtain ⟨c, hc, rfl⟩ := List.mem_map.mp hp
    obtain ⟨hle, hlt⟩ := List.mem_range'_1.mp hc
    refine ⟨c, rfl, ?_⟩
    change (f.db.connections ++ List.replicate config.worker.toNat (fresh lib config))[c]? = _
    rw [List.getElem?_append_right hle]
    exact List.getElem?_replicate_of_lt (by omega)

/-- A failed start changes nothing exactly if nothing can fail. Behind starts that failed, one
that succeeds fills the pool with its own connections exactly if each of them failed at once. -/
theorem failedStart_iff (lib : Libpq S) :
    (∀ (f : DbFacade S) (logins : Nat → Login),
      FailsClean lib f logins ↔ NothingFails f logins) ∧
    ∀ (acts : List Action) (f : DbFacade S) (config : Configuration) (logins : Nat → Login),
      (step lib).run init acts = some f →
      (step lib).Along (fun f a _ => NoStart lib f a) init acts →
      f.config = some config → (f.run lib logins).2 = .ok true →
      (PoolOf lib config (f.run lib logins).1.db ↔
        (step lib).Along (fun f a _ => FailsAtOnce f a) init acts) := by
  refine ⟨failsClean_iff, ?_⟩
  intro acts f config logins hf hno hconfig hok
  obtain ⟨hrun, hpool⟩ := run_noStart rfl hf hno
  rw [poolOf_iff hrun hconfig hok, hpool]
  simp [init, Postgres.init]

/-- One connection for `host`. -/
def someConfiguration : Configuration :=
  ⟨"host".toList, "name".toList, "user".toList, "pass".toList, 5432, 2⟩

/-- The server takes the first `n` connections. -/
def takes (n : Nat) (i : Nat) : Login := ⟨i < n, false, "refused".toList⟩

/-- Sessions that have only a configuration. -/
def libpq : Libpq Configuration where
  login config := config
  prepare s _ _ _ := s
  execPrepared s _ _ _ := s
  prepared _ _ := none

/-- A start that fails at once, and one that succeeds. -/
theorem failedStart_at_once : PoolOf libpq someConfiguration
    ((DbFacade.mk (some someConfiguration) (.init : Postgres Configuration)).run libpq
      (takes 2)).1.db := by
  refine ((failedStart_iff libpq).2 [.setConfiguration someConfiguration, .run (takes 0),
    .setConfiguration someConfiguration] _ someConfiguration (takes 2) rfl ?_ rfl rfl).mpr ?_
  · refine (Machine.along_cons_of_step rfl).mpr ⟨trivial, (Machine.along_cons_of_step rfl).mpr
      ⟨?_, (Machine.along_cons_of_step rfl).mpr ⟨trivial, trivial⟩⟩⟩
    change Except.error (Thrown.exception "std::exception".toList) ≠ Except.ok true
    exact nofun
  · refine (Machine.along_cons_of_step rfl).mpr ⟨trivial, (Machine.along_cons_of_step rfl).mpr
      ⟨?_, (Machine.along_cons_of_step rfl).mpr ⟨trivial, trivial⟩⟩⟩
    intro config hconfig
    obtain rfl := Option.some.inj hconfig
    decide

/-- A facade after a start of which the first connection was made and the second failed. -/
def halfStarted : DbFacade Configuration :=
  (run libpq ⟨some someConfiguration, .init⟩ (takes 1)).1

/-- The start ended with an exception, the first connection stays in the pool and the
configuration is gone. A later start that succeeds has three connections in its pool. -/
theorem failedStart_keeps_connection :
    (run libpq ⟨some someConfiguration, .init⟩ (takes 1)).2 =
        .error (.exception "std::exception".toList) ∧
      halfStarted.config = none ∧ halfStarted.db.poolConn = [some 0] ∧
      ((halfStarted.setConfiguration someConfiguration).run libpq (takes 2)).2 = .ok true ∧
      ((halfStarted.setConfiguration someConfiguration).run libpq (takes 2)).1.db.poolConn =
        [some 0, some 1, some 2] :=
  ⟨rfl, rfl, rfl, rfl, rfl⟩

end DbFacade

end FHT.DBFacade
