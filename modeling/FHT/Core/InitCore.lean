import FHT.Core.Server
import FHT.DBFacade.Facade

/-!
# Starts of the core

`InitCore` sets the logger, starts the database where its settings are complete, and then starts
the server where it is to have workers. Its handler catches what is derived from `std::exception`:
a database that cannot be reached only keeps the server from being started, while a second start
of a database that runs leaves `InitCore` with an exception. The messages are left out.

## Main definitions

- `CoreFHT` — what `InitCore` sets and starts
- `CoreFHT.initCore`
- `CoreFHT.program` — how a program ends that makes some calls and catches nothing

## Main results

- `CoreFHT.initCore_after` — what a call does, by what the calls before it have started
- `CoreFHT.terminated_iff` — when a program ends in `std::terminate`
-/

namespace FHT.Core

open DBFacade (Configuration DbFacade Libpq Login connects)

/-- `FHTDefaultConfig`, with the members of its `log`. -/
structure FHTDefaultConfig where
  hostServer : Str
  portServer : Int
  workerServer : Int
  dbConfig : Configuration
  logTime : Int
  logLevel : Int
  logFileName : Str

/-- A call of `InitCore`, with the logins that it makes and the threads that it can start. -/
structure InitCall where
  config : FHTDefaultConfig
  logins : Nat → Login
  limit : Nat

/-- The members `m_intervalSec`, `m_verboseLogging` and `m_fileLoggingName` of the logger, where
the level is the number that was cast, the facade of the database and the server. -/
structure CoreFHT (S : Type*) where
  intervalSec : Int
  verboseLogging : Int
  fileLoggingName : Str
  facade : DbFacade S
  server : Server

namespace InitCall

/-- The call starts the database: it is built with `DBPOSTGRESQL` and the settings are complete. -/
def usesDb (postgres : Bool) (c : InitCall) : Bool :=
  postgres && (c.config.dbConfig.host ≠ [] ∧ c.config.dbConfig.name ≠ [] ∧
    c.config.dbConfig.user ≠ [] ∧ c.config.dbConfig.pass ≠ [])

/-- It can succeed in that. -/
def startsDb (postgres : Bool) (c : InitCall) : Bool :=
  c.usesDb postgres &&
    decide (∀ i < c.config.dbConfig.worker.toNat, connects c.config.dbConfig (c.logins i))

/-- The connections that it can make. -/
def connected (c : InitCall) : Nat :=
  (((List.range c.config.dbConfig.worker.toNat).map c.logins).takeWhile
    (connects c.config.dbConfig)).length

def settings (c : InitCall) : Settings :=
  ⟨c.config.hostServer, c.config.portServer, c.config.workerServer⟩

/-- The calls of `Server` in the start of the server. -/
def serverCalls (c : InitCall) : List ServerCall :=
  [.setHost c.config.hostServer, .setPort c.config.portServer, .setWorker c.config.workerServer,
    .run c.limit]

end InitCall

namespace CoreFHT

variable {S : Type*} (lib : Libpq S) (makeAddress : Str → Option Str) (postgres : Bool)

/-- `worker` is `hardware_concurrency()`. -/
def init (worker : Int) : CoreFHT S := ⟨0, 0, "FHT.log".toList, .init, .init worker⟩

def setLogger (core : CoreFHT S) (config : FHTDefaultConfig) : CoreFHT S :=
  { core with
    intervalSec := config.logTime
    verboseLogging := config.logLevel
    fileLoggingName := if config.logFileName = [] then core.fileLoggingName
      else config.logFileName }

def startDb (core : CoreFHT S) (c : InitCall) : CoreFHT S × Except Thrown Bool :=
  if c.usesDb postgres then
    let (facade, res) := (core.facade.setConfiguration c.config.dbConfig).run lib c.logins
    ({ core with facade := facade }, res)
  else (core, .ok true)

def startServer (core : CoreFHT S) (c : InitCall) : CoreFHT S :=
  if 0 < c.config.workerServer then
    { core with server := { core.server with settings := c.settings }.run makeAddress c.limit }
  else core

def initCore (core : CoreFHT S) (c : InitCall) : CoreFHT S × Except Thrown Unit :=
  match (core.setLogger c.config).startDb lib postgres c with
  | (core, .error e) => (core, if e.isException then .ok () else .error e)
  | (core, .ok _) => (core.startServer makeAddress c, .ok ())

/-- At the exit of a program that leaves the server to `InitCore`, which makes it in its first start
of the server. -/
def exit (core : CoreFHT S) : Destroyed :=
  match core.server.ioc with
  | none => .completed
  | some _ => core.server.destructor

/-- How a program ends that makes the calls one after another and catches nothing. -/
def program (core : CoreFHT S) : List InitCall → Destroyed
  | [] => core.exit
  | c :: calls =>
    match core.initCore lib makeAddress postgres c with
    | (core, .ok ()) => core.program calls
    | (_, .error _) => .terminated

/-- A caller may catch what leaves `InitCore` and go on. -/
def step : Machine (CoreFHT S) InitCall :=
  fun core c => some (core.initCore lib makeAddress postgres c).1

/-- How the start of the database ends. -/
inductive DbStart (core : CoreFHT S) (c : InitCall) : CoreFHT S × Except Thrown Bool → Prop
  | unused (huses : c.usesDb postgres = false) : DbStart core c (core, .ok true)
  | running (huses : c.usesDb postgres = true) (hrun : core.facade.db.isRun = true) :
    DbStart core c ({ core with facade := ⟨none, core.facade.db⟩ },
      .error (.cString "Postgres runing!".toList))
  | started (huses : c.usesDb postgres = true) (hstarts : c.startsDb postgres = true)
      (hrun : core.facade.db.isRun = false) : DbStart core c
    ({ core with facade := ⟨none, { core.facade.db.added lib c.config.dbConfig c.connected with
      isRun := true }⟩ }, .ok true)
  | failed (huses : c.usesDb postgres = true) (hstarts : c.startsDb postgres = false)
      (hrun : core.facade.db.isRun = false) {e : Thrown} (he : e.isException = true) :
    DbStart core c
      ({ core with facade := ⟨none, core.facade.db.added lib c.config.dbConfig c.connected⟩ },
        .error e)

/-- The calls of `Server` in a call of `InitCore`; `up` is whether the database runs. -/
def serverCalls (up : Bool) (c : InitCall) : List ServerCall :=
  if 0 < c.config.workerServer ∧ (c.usesDb postgres → c.startsDb postgres ∧ ¬ up) then
    c.serverCalls
  else []

/-- What a call does, by whether the database runs. -/
structure Inits (core : CoreFHT S) (c : InitCall) (next : CoreFHT S × Except Thrown Unit) :
    Prop where
  thrown : ∀ e, next.2 = .error e ↔
    c.usesDb postgres ∧ core.facade.db.isRun ∧ e = .cString "Postgres runing!".toList
  isRun : next.1.facade.db.isRun = (core.facade.db.isRun || c.startsDb postgres)
  connections : next.1.facade.db.connections = core.facade.db.connections ++
    List.replicate (if c.usesDb postgres ∧ ¬ core.facade.db.isRun then c.connected else 0)
      (DBFacade.fresh lib c.config.dbConfig)
  server : (Server.step makeAddress).run core.server
    (serverCalls postgres core.facade.db.isRun c) = some next.1.server

variable {lib} {makeAddress} {postgres}

theorem startDb_cases (core : CoreFHT S) (c : InitCall) :
    DbStart lib postgres core c (core.startDb lib postgres c) := by
  cases huses : c.usesDb postgres with
  | false =>
    have hstart : core.startDb lib postgres c = (core, .ok true) := by rw [startDb, huses]; rfl
    exact hstart ▸ .unused huses
  | true =>
    have hstart : core.startDb lib postgres c =
        ({ core with facade := ⟨none, (core.facade.db.run lib c.config.dbConfig c.logins).1⟩ },
          (core.facade.db.run lib c.config.dbConfig c.logins).2) := by
      rw [startDb, if_pos huses]
      rfl
    cases hrun : core.facade.db.isRun with
    | true =>
      rw [hstart, DBFacade.Postgres.run_of_isRun hrun]
      exact .running huses hrun
    | false =>
      cases hstarts : c.startsDb postgres with
      | true =>
        have hall : ∀ i < c.config.dbConfig.worker.toNat,
            connects c.config.dbConfig (c.logins i) := by
          simpa [InitCall.startsDb, huses] using hstarts
        have hconnected : c.connected = c.config.dbConfig.worker.toNat := by
          have hlogins : ∀ l ∈ (List.range c.config.dbConfig.worker.toNat).map c.logins,
              connects c.config.dbConfig l := by simpa using hall
          rw [InitCall.connected, List.takeWhile_eq_self_iff.mpr hlogins, List.length_map,
            List.length_range]
        -- every login succeeds, so the connections that can be made are all of them
        rw [hstart, DBFacade.Postgres.run_of_connects hrun hall, ← hconnected]
        exact .started huses hstarts hrun
      | false =>
        have hno : ¬ ∀ i < c.config.dbConfig.worker.toNat,
            connects c.config.dbConfig (c.logins i) := by
          simpa [InitCall.startsDb, huses] using hstarts
        obtain ⟨e, he⟩ := DBFacade.Postgres.run_of_not_connects lib hrun hno
        have hthrown := DBFacade.Postgres.isException_of_run lib hrun (congrArg Prod.snd he)
        rw [hstart, he]
        exact .failed huses hstarts hrun hthrown

@[simp] theorem setLogger_facade (core : CoreFHT S) (config : FHTDefaultConfig) :
    (core.setLogger config).facade = core.facade := rfl

@[simp] theorem startServer_facade (core : CoreFHT S) (c : InitCall) :
    (core.startServer makeAddress c).facade = core.facade := by
  rw [startServer]
  split <;> rfl

theorem startsDb_of_not_usesDb {c : InitCall} (h : c.usesDb postgres = false) :
    c.startsDb postgres = false := by
  rw [InitCall.startsDb, h, Bool.false_and]

/-- The calls that the server receives where the database does not stand in the way. -/
theorem run_serverCalls (core : CoreFHT S) {c : InitCall} {up : Bool}
    (h : c.usesDb postgres → c.startsDb postgres ∧ ¬ up) :
    (Server.step makeAddress).run core.server (serverCalls postgres up c) =
      some (core.startServer makeAddress c).server := by
  by_cases hworker : 0 < c.config.workerServer
  · rw [serverCalls, if_pos ⟨hworker, h⟩, startServer, if_pos hworker]
    rfl
  · rw [serverCalls, if_neg fun hcalls => hworker hcalls.1, startServer, if_neg hworker]
    rfl

theorem initCore_inits (core : CoreFHT S) (c : InitCall) :
    Inits lib makeAddress postgres core c (core.initCore lib makeAddress postgres c) := by
  have hstart : DbStart lib postgres (core.setLogger c.config) c _ := startDb_cases _ c
  rw [initCore]
  generalize (core.setLogger c.config).startDb lib postgres c = r at hstart
  cases hstart with
  | unused huses =>
    exact ⟨by simp [huses], by simp [startsDb_of_not_usesDb huses], by simp [huses],
      run_serverCalls (core.setLogger c.config) (by simp [huses])⟩
  | running huses hrun =>
    rw [setLogger_facade] at hrun
    have hcalls : serverCalls postgres core.facade.db.isRun c = [] :=
      if_neg fun h => (h.2 huses).2 hrun
    exact ⟨by simp [huses, hrun, Thrown.isException, eq_comm], by simp [hrun], by simp [hrun], by
      rw [hcalls]; rfl⟩
  | started huses hstarts hrun =>
    rw [setLogger_facade] at hrun
    refine ⟨by simp [hrun], by simp [hstarts], ?_, ?_⟩
    · simp [huses, hrun, DBFacade.Postgres.added]
    -- the start of the server finds the settings of the server untouched
    · refine run_serverCalls { core.setLogger c.config with facade := _ } ?_
      exact fun _ => ⟨hstarts, by simp [hrun]⟩
  | failed huses hstarts hrun he =>
    rw [setLogger_facade] at hrun
    have hcalls : serverCalls postgres core.facade.db.isRun c = [] :=
      if_neg fun h => by simpa [hstarts] using (h.2 huses).1
    refine ⟨by simp [he, hrun], ?_, ?_, by rw [hcalls]; rfl⟩
    · simp [hrun, hstarts, DBFacade.Postgres.added]
    · simp [huses, hrun, DBFacade.Postgres.added]

/-- A call that starts the server and finds threads for it. -/
def AddsWorkers (postgres up : Bool) (c : InitCall) : Prop :=
  0 < c.config.workerServer ∧ c.limit ≠ 0 ∧ (c.usesDb postgres → c.startsDb postgres ∧ ¬ up)

theorem step_pool {core : CoreFHT S} {c : InitCall} {up : Bool} {t : Server}
    (h : (Server.step makeAddress).run core.server (serverCalls postgres up c) = some t) :
    (t.ioc = none → core.server.ioc = none ∧ t.pool = core.server.pool) ∧
      (t.pool ≠ [] ↔ core.server.pool ≠ [] ∨ AddsWorkers postgres up c) := by
  by_cases hcalls : c.usesDb postgres → c.startsDb postgres ∧ ¬ up
  · rw [run_serverCalls core hcalls] at h
    obtain rfl := Option.some.inj h
    rw [startServer]
    split
    · next hworker =>
      have hstarted : started c.settings c.limit = 0 ↔ c.limit = 0 := by
        have hsettings : 0 < c.settings.worker := hworker
        rw [started]
        omega
      refine ⟨fun hioc => by simp [Server.run] at hioc, ?_⟩
      simp only [Server.run, ne_eq, List.append_eq_nil_iff, List.replicate_eq_nil_iff, hstarted,
        AddsWorkers]
      tauto
    · next hworker => exact ⟨fun hioc => ⟨hioc, rfl⟩, by simp [AddsWorkers, hworker]⟩
  · rw [serverCalls, if_neg fun h => hcalls h.2] at h
    obtain rfl := Option.some.inj h
    exact ⟨fun hioc => ⟨hioc, rfl⟩, by simp only [AddsWorkers, hcalls]; simp⟩

theorem isRun_of_run {worker : Int} {calls : List InitCall} {core : CoreFHT S}
    (hrun : (step lib makeAddress postgres).run (init worker) calls = some core) :
    core.facade.db.isRun = calls.any (·.startsDb postgres) := by
  refine Machine.run_history (P := fun _ => True)
    (I := fun calls core => core.facade.db.isRun = calls.any (·.startsDb postgres)) ?_ rfl
    (fun _ _ => trivial) hrun
  intro calls core c next hcalls _ hstep
  obtain rfl := Option.some.inj hstep
  have hinits : Inits lib makeAddress postgres core c _ := initCore_inits core c
  simp [hinits.isRun, hcalls]

/-- After any calls: a call ends with an exception exactly if it is to start a database that an
earlier call has started. It adds the connections that it can make unless the database runs, and
it starts the server exactly if this is to have workers and the start of the database, if there is
one, succeeds. -/
theorem initCore_after {worker : Int} {calls : List InitCall} {core : CoreFHT S}
    (hrun : (step lib makeAddress postgres).run (init worker) calls = some core) (c : InitCall) :
    let up := calls.any (·.startsDb postgres)
    let next := core.initCore lib makeAddress postgres c
    (∀ e, next.2 = .error e ↔
      c.usesDb postgres ∧ up ∧ e = .cString "Postgres runing!".toList) ∧
    next.1.facade.db.isRun = (up || c.startsDb postgres) ∧
    next.1.facade.db.connections = core.facade.db.connections ++
      List.replicate (if c.usesDb postgres ∧ ¬ up then c.connected else 0)
        (DBFacade.fresh lib c.config.dbConfig) ∧
    (Server.step makeAddress).run core.server (serverCalls postgres up c) =
      some next.1.server := by
  intro up next
  have hinits : Inits lib makeAddress postgres core c next := initCore_inits core c
  have hup : core.facade.db.isRun = up := isRun_of_run hrun
  rw [← hup]
  exact ⟨hinits.thrown, hinits.isRun, hinits.connections, hinits.server⟩

/-- A call with a database of two connections and a server with two workers. -/
def twice : InitCall where
  config := ⟨"0.0.0.0".toList, 10800, 2, DbFacade.someConfiguration, 0, 4, "FHT.log".toList⟩
  logins := DbFacade.takes 2
  limit := 2

theorem initCore_after_twice : ∃ core,
    (step DbFacade.libpq some true).run (init 4) [twice] = some core ∧
      (core.initCore DbFacade.libpq some true twice).2 =
        .error (.cString "Postgres runing!".toList) := by
  have hrun : (step DbFacade.libpq some true).run (init 4) [twice] = some _ := rfl
  exact ⟨_, hrun, ((initCore_after hrun twice).1 _).mpr ⟨by decide, by decide, rfl⟩⟩

/-- The call runs into `std::terminate`, in itself or later in `~Server`; `up` is whether the
database runs. -/
def Terminates (postgres up : Bool) (c : InitCall) : Prop :=
  c.usesDb postgres ∧ up ∨ AddsWorkers postgres up c

/-- A statement of the first element or of one behind it. -/
theorem exists_split_cons {α : Type*} {P : List α → α → Prop} {l : List α} {a : α} :
    (∃ pre b post, a :: l = pre ++ b :: post ∧ P pre b) ↔
      P [] a ∨ ∃ pre b post, l = pre ++ b :: post ∧ P (a :: pre) b := by
  constructor
  · rintro ⟨pre, b, post, hsplit, hP⟩
    cases pre with
    | nil =>
      obtain ⟨rfl, -⟩ := List.cons.inj hsplit
      exact .inl hP
    | cons d pre =>
      obtain ⟨rfl, rfl⟩ := List.cons.inj hsplit
      exact .inr ⟨pre, b, post, rfl, hP⟩
  · rintro (hP | ⟨pre, b, post, rfl, hP⟩)
    · exact ⟨[], a, l, rfl, hP⟩
    · exact ⟨a :: pre, b, post, rfl, hP⟩

theorem exit_iff {core : CoreFHT S} (h : core.server.ioc = none → core.server.pool = []) :
    core.exit = .terminated ↔ core.server.pool ≠ [] := by
  rw [exit, Server.destructor]
  cases hioc : core.server.ioc with
  | none => simp [h hioc]
  | some ioc => by_cases hpool : core.server.pool = [] <;> simp [hpool]

/-- A program comes to `std::terminate` from a core if this has workers or a call does it. -/
theorem program_iff {core : CoreFHT S} {calls : List InitCall}
    (h : core.server.ioc = none → core.server.pool = []) :
    core.program lib makeAddress postgres calls = .terminated ↔ core.server.pool ≠ [] ∨
      ∃ pre c post, calls = pre ++ c :: post ∧
        Terminates postgres (core.facade.db.isRun || pre.any (·.startsDb postgres)) c := by
  induction calls generalizing core with
  | nil => simp [program, exit_iff h]
  | cons c calls ih =>
    have hinits : Inits lib makeAddress postgres core c _ := initCore_inits core c
    obtain ⟨hnone, hpool⟩ := step_pool hinits.server
    rw [program, exists_split_cons]
    rcases hnext : core.initCore lib makeAddress postgres c with ⟨next, res⟩
    rw [hnext] at hinits hnone hpool
    cases res with
    | error e =>
      -- the exception is the one of a database that runs
      obtain ⟨huses, hup, -⟩ := (hinits.thrown e).mp rfl
      exact iff_of_true rfl (.inr (.inl (.inl ⟨huses, by rw [hup, Bool.true_or]⟩)))
    | ok u =>
      have hreturns : ¬ (c.usesDb postgres ∧ core.facade.db.isRun) := fun hthrow =>
        nomatch (hinits.thrown _).mpr ⟨hthrow.1, hthrow.2, rfl⟩
      have hc : Terminates postgres core.facade.db.isRun c ↔
          AddsWorkers postgres core.facade.db.isRun c := or_iff_right hreturns
      rw [ih fun hioc => by rw [(hnone hioc).2, h (hnone hioc).1], hpool]
      have hup : next.facade.db.isRun = (core.facade.db.isRun || c.startsDb postgres) :=
        hinits.isRun
      simp only [hup, List.any_nil, Bool.or_false, List.any_cons, Bool.or_assoc, hc]
      exact or_assoc

/-- A program that leaves the server to its calls of `InitCore`, and catches nothing, ends in
`std::terminate` exactly if one of the calls is to start a database that runs or adds workers. -/
theorem terminated_iff {worker : Int} {calls : List InitCall} :
    (init worker).program lib makeAddress postgres calls = .terminated ↔
      ∃ pre c post, calls = pre ++ c :: post ∧
        Terminates postgres (pre.any (·.startsDb postgres)) c := by
  rw [program_iff fun _ => rfl]
  simp [init, Server.init, DbFacade.init, DBFacade.Postgres.init]

/-- The database without a server. -/
def database : InitCall := { twice with config := { twice.config with workerServer := 0 } }

/-- Without workers it is the second start of the database that ends the program. -/
example : (init 4).program DbFacade.libpq some true [database] = .completed ∧
    (init 4).program DbFacade.libpq some true [database, database] = .terminated :=
  ⟨rfl, rfl⟩

end CoreFHT

end FHT.Core
