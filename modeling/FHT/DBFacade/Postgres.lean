import Mathlib.Data.Finset.Insert
import Mathlib.Logic.Function.Basic
import FHT.Lib.Machine
import FHT.Lib.StdMap
import FHT.Lib.StdString
import FHT.Lib.Thrown

/-!
# The PostgreSQL facade

A `Postgres` keeps a pool of connections. A query takes one, prepares its text there unless this
connection has it already, executes it and gives the connection back. `libpq` and the name
generator of the uuid library are parameters.

A step of a query goes from one lock, or one call of `libpq`, to the next. What it computes in
between touches its own variables and the connection that it holds.

## Main definitions

- `Libpq` — the sessions behind the connections, and what the calls do to them
- `Postgres` — the members of `Postgres` with the calls of `query_private` in progress
- `Postgres.run` — the start
- `Postgres.step` — starts and any number of queries, in any order

## Main results

- `Postgres.step_moves` — what one step does
- `Postgres.Moves.queries_of_ne` — a step leaves the other queries alone, or wakes one
-/

namespace FHT.DBFacade

inductive ExecStatusType
  | PGRES_EMPTY_QUERY
  | PGRES_COMMAND_OK
  | PGRES_TUPLES_OK
  | PGRES_COPY_OUT
  | PGRES_COPY_IN
  | PGRES_BAD_RESPONSE
  | PGRES_NONFATAL_ERROR
  | PGRES_FATAL_ERROR
  deriving DecidableEq

/-- A `PGresult`: `PQfname` and `PQgetvalue` read `fnames` and `rows`. -/
structure PGresult where
  status : ExecStatusType
  errorMessage : Str
  fnames : List Str
  rows : List (List Str)
  rows_length : ∀ row ∈ rows, row.length = fnames.length

/-- `returnQuery`: the values of each field. -/
abbrev ReturnQuery := StdMap Str (List Str)

/-- The map that a query makes of its result. -/
def PGresult.out (res : PGresult) : ReturnQuery :=
  if res.rows.length = 0 then ∅
  else StdMap.emplaceAll ∅
    (res.fnames.zipIdx.map fun f => (f.1, res.rows.map fun row => row.getD f.2 []))

/-- `iDBFacade::Configuration`. -/
structure Configuration where
  host : Str
  name : Str
  user : Str
  pass : Str
  port : Int
  worker : Int

/-- Sessions `S` on the server. `prepare` and `execPrepared` are the session after a call that
ended with the given result, `none` for a null pointer. -/
structure Libpq (S : Type*) where
  login : Configuration → S
  prepare (s : S) (stmtName query : Str) (res : Option PGresult) : S
  execPrepared (s : S) (stmtName : Str) (params : List (Option Str)) (res : Option PGresult) : S
  prepared (s : S) (stmtName : Str) : Option Str

/-- The prepared statements of a session: only a `PQprepare` that succeeds changes them. -/
structure Libpq.Lawful {S : Type*} (lib : Libpq S) : Prop where
  login : ∀ config stmtName, lib.prepared (lib.login config) stmtName = none
  prepare_ok : ∀ s stmtName query (res : PGresult), res.status = .PGRES_COMMAND_OK →
    lib.prepared (lib.prepare s stmtName query (some res)) =
      Function.update (lib.prepared s) stmtName (some query)
  prepare_failed : ∀ s stmtName query res,
    (∀ r : PGresult, res = some r → r.status ≠ .PGRES_COMMAND_OK) →
    lib.prepared (lib.prepare s stmtName query res) = lib.prepared s
  execPrepared : ∀ s stmtName params res,
    lib.prepared (lib.execPrepared s stmtName params res) = lib.prepared s

/-- `guid`: the generator reads a C string. -/
def guid (gen : Str → Str) (ab : Str) : Str := gen (StdString.cStr ab)

/-- The name under which `query_private` prepares a text. -/
def stmtName (gen : Str → Str) (query : Str) : Str :=
  ("web_access_".toList ++ guid gen query).filter (· ≠ '-')

/-- `PostgresConnection`: the session behind it and `m_stmt_list`. -/
structure PostgresConnection (S : Type*) where
  connection : S
  stmtList : Finset Str

/-- How a login went: `PQstatus` is `CONNECTION_OK`, `PQsetnonblocking` returned 0, and what
`PQerrorMessage` says. -/
structure Login where
  statusOk : Bool
  nonblocking : Bool
  errorMessage : Str

/-- The constructor. -/
def PostgresConnection.make {S : Type*} (lib : Libpq S) (config : Configuration) (l : Login) :
    Except Thrown (PostgresConnection S) :=
  if config.host ≠ [] ∧ config.name ≠ [] ∧ config.user ≠ [] ∧ config.pass ≠ [] then
    if !l.statusOk && !l.nonblocking then .error (.exception l.errorMessage)
    else .ok ⟨lib.login config, ∅⟩
  else .error (.exception "Postgres error config!!!".toList)

/-- A `shared_ptr` to a connection: its number, or null. -/
abbrev PtrConnection := Option Nat

/-- Where a call of `query_private` is. From `getConnection` on it has passed the test of
`m_isRun`; in `destructor` the local `connection` is being destroyed. -/
inductive Stage
  | getConnection
  -- in `m_condition.wait`
  | waiting
  | prepare (connection : Nat)
  | exec (connection : Nat)
  | destructor (connection : PtrConnection) (out : Except Thrown ReturnQuery)
  | notify (out : Except Thrown ReturnQuery)
  | returned (out : Except Thrown ReturnQuery)

/-- A call of `query_private`. -/
structure Query where
  query : Str
  params : List (Option Str)
  stage : Stage

/-- The array of `queryPrivate`: an empty parameter becomes a null pointer. -/
def paramValues (param : List Str) : List (Option Str) :=
  param.map fun p => if p = [] then none else some (StdString.cStr p)

/-- The members `m_isRun` and `m_pool_conn`, the connections made so far, the calls of
`query_private` and those among them that wait on `m_condition`. -/
structure Postgres (S : Type*) where
  isRun : Bool
  poolConn : List PtrConnection
  connections : List (PostgresConnection S)
  queries : Nat → Option Query
  waiters : List Nat

namespace Postgres

variable {S : Type*}

def init : Postgres S := ⟨false, [], [], fun _ => none, []⟩

/-- The call `i` goes to another stage. -/
def setStage (s : Postgres S) (i : Nat) (q : Query) (stage : Stage) : Postgres S :=
  { s with queries := Function.update s.queries i (some { q with stage := stage }) }

theorem setStage_queries (s : Postgres S) (i : Nat) (q : Query) (stage : Stage) (j : Nat) :
    (s.setStage i q stage).queries j =
      if j = i then some { q with stage := stage } else s.queries j :=
  Function.update_apply ..

/-- The loop of `run`, with the logins in their order. -/
def emplaceConnections (lib : Libpq S) (config : Configuration) :
    List Login → Postgres S → Postgres S × Option Thrown
  | [], s => (s, none)
  | l :: logins, s =>
    match PostgresConnection.make lib config l with
    | .error e => (s, some e)
    | .ok connection => emplaceConnections lib config logins
        { s with
          poolConn := s.poolConn ++ [some s.connections.length]
          connections := s.connections ++ [connection] }

/-- `Postgres::run`. The handler throws a copy of the base class. The task that deletes old
notifications, posted for every eight hours, is one more caller of `query_private`. -/
def run (lib : Libpq S) (s : Postgres S) (config : Configuration) (logins : Nat → Login) :
    Postgres S × Except Thrown Bool :=
  if s.isRun then (s, .error (.cString "Postgres runing!".toList))
  else
    match s.emplaceConnections lib config ((List.range config.worker.toNat).map logins) with
    | (s, some e) =>
      (s, .error (if e.isException then .exception "std::exception".toList else e))
    | (s, none) => ({ s with isRun := true }, .ok true)

/-- `query_private` is called: it throws unless the facade runs. -/
def begin (s : Postgres S) (i : Nat) (query : Str) (param : List Str) : Option (Postgres S) :=
  match s.queries i with
  | some _ => none
  | none => some <| s.setStage i ⟨query, paramValues param, .getConnection⟩
      (if s.isRun then .getConnection
      else .returned (.error (.cString "iPostgres not runing!".toList)))

variable (lib : Libpq S) (gen : Str → Str)

/-- `getConnection`, under its lock: the call waits, or takes the first connection and looks its
statement up there. -/
def getConnection (s : Postgres S) (i : Nat) : Option (Postgres S) :=
  match s.queries i with
  | some ⟨query, params, .getConnection⟩ =>
    match s.poolConn with
    | [] => some <| setStage { s with waiters := s.waiters ++ [i] } i
        ⟨query, params, .getConnection⟩ .waiting
    | none :: rest => some <| setStage { s with poolConn := rest } i
        ⟨query, params, .getConnection⟩
        (.destructor none (.error (.cString "Error Connection".toList)))
    | some c :: rest =>
      s.connections[c]?.map fun connection => setStage { s with poolConn := rest } i
        ⟨query, params, .getConnection⟩
        (if stmtName gen query ∈ connection.stmtList then .exec c else .prepare c)
  | _ => none

/-- The connection `c` has changed. -/
def setConnection (s : Postgres S) (c : Nat) (connection : PostgresConnection S) : Postgres S :=
  { s with connections := s.connections.set c connection }

/-- `PQprepare` returns `res`: on success the statement is added to the list. -/
def prepare (s : Postgres S) (i : Nat) (res : Option PGresult) : Option (Postgres S) :=
  match s.queries i with
  | some ⟨query, params, .prepare c⟩ =>
    s.connections[c]?.map fun connection =>
      let session := lib.prepare connection.connection (StdString.cStr (stmtName gen query))
        (StdString.cStr query) res
      match res with
      | none => (s.setConnection c ⟨session, connection.stmtList⟩).setStage i
          ⟨query, params, .prepare c⟩
          (.destructor (some c) (.error (.cString "Error create PG stmt".toList)))
      | some res =>
        if res.status ≠ .PGRES_COMMAND_OK then
          (s.setConnection c ⟨session, connection.stmtList⟩).setStage i
            ⟨query, params, .prepare c⟩
            (.destructor (some c) (.error (.cString res.errorMessage)))
        else
          (s.setConnection c ⟨session, insert (stmtName gen query) connection.stmtList⟩).setStage i
            ⟨query, params, .prepare c⟩ (.exec c)
  | _ => none

/-- What `query_private` makes of the result of `PQexecPrepared`. -/
def execOut : Option PGresult → Except Thrown ReturnQuery
  | none => .error (.cString "Error exec PG query trough stmt".toList)
  | some res =>
    if res.status ≠ .PGRES_TUPLES_OK ∧ res.status ≠ .PGRES_COMMAND_OK then
      .error (.cString res.errorMessage)
    else .ok res.out

/-- `PQexecPrepared` returns `res`. -/
def exec (s : Postgres S) (i : Nat) (res : Option PGresult) : Option (Postgres S) :=
  match s.queries i with
  | some ⟨query, params, .exec c⟩ =>
    s.connections[c]?.map fun connection =>
      let session := lib.execPrepared connection.connection
        (StdString.cStr (stmtName gen query)) params res
      (s.setConnection c ⟨session, connection.stmtList⟩).setStage i
        ⟨query, params, .exec c⟩ (.destructor (some c) (execOut res))
  | _ => none

/-- `~Connection`: a connection that is not null goes back to the pool. -/
def freeConnection (s : Postgres S) (i : Nat) : Option (Postgres S) :=
  match s.queries i with
  | some ⟨query, params, .destructor none out⟩ =>
    some <| s.setStage i ⟨query, params, .destructor none out⟩ (.returned out)
  | some ⟨query, params, .destructor (some c) out⟩ =>
    some <| setStage { s with poolConn := s.poolConn ++ [some c] } i
      ⟨query, params, .destructor (some c) out⟩ (.notify out)
  | _ => none

/-- The call `i` leaves `m_condition.wait`. -/
def wake (s : Postgres S) (i : Nat) : Option (Postgres S) :=
  match s.queries i with
  | some ⟨query, params, .waiting⟩ =>
    some <| setStage { s with waiters := s.waiters.erase i } i
      ⟨query, params, .waiting⟩ .getConnection
  | _ => none

/-- `notify_one` wakes the call `w`, or nobody where nobody waits. -/
def notify (s : Postgres S) (i : Nat) (w : Option Nat) : Option (Postgres S) :=
  match s.queries i with
  | some ⟨query, params, .notify out⟩ =>
    let s := s.setStage i ⟨query, params, .notify out⟩ (.returned out)
    match w with
    | none => if s.waiters = [] then some s else none
    | some j => s.wake j
  | _ => none

/-- What moves, with the choices of the environment. `spurious` is a return of
`m_condition.wait` without a notification. -/
inductive Action
  | run (config : Configuration) (logins : Nat → Login)
  | begin (i : Nat) (query : Str) (param : List Str)
  | getConnection (i : Nat)
  | prepare (i : Nat) (res : Option PGresult)
  | exec (i : Nat) (res : Option PGresult)
  | freeConnection (i : Nat)
  | notify (i : Nat) (w : Option Nat)
  | spurious (i : Nat)

def step : Machine (Postgres S) Action
  | s, .run config logins => some (s.run lib config logins).1
  | s, .begin i query param => s.begin i query param
  | s, .getConnection i => s.getConnection gen i
  | s, .prepare i res => s.prepare lib gen i res
  | s, .exec i res => s.exec lib gen i res
  | s, .freeConnection i => s.freeConnection i
  | s, .notify i w => s.notify i w
  | s, .spurious i => s.wake i

/-- The query whose step it is. -/
def Action.query : Action → Option Nat
  | .run _ _ => none
  | .begin i _ _ | .getConnection i | .prepare i _ | .exec i _ | .freeConnection i | .notify i _
  | .spurious i => some i

/-- The error that `query_private` makes of the result of `PQprepare`, if it is one. -/
def prepareError : Option PGresult → Option Thrown
  | none => some (.cString "Error create PG stmt".toList)
  | some res =>
    if res.status ≠ .PGRES_COMMAND_OK then some (.cString res.errorMessage) else none

/-- What a step does. -/
inductive Moves (s : Postgres S) : Action → Postgres S → Prop
  | run {config logins} : Moves s (.run config logins) (s.run lib config logins).1
  | begin {i query param} (hi : s.queries i = none) :
      Moves s (.begin i query param) (s.setStage i ⟨query, paramValues param, .getConnection⟩
        (if s.isRun then .getConnection
        else .returned (.error (.cString "iPostgres not runing!".toList))))
  | wait {i q} (hi : s.queries i = some q) (hst : q.stage = .getConnection)
      (hp : s.poolConn = []) : Moves s (.getConnection i)
        (setStage { s with waiters := s.waiters ++ [i] } i q .waiting)
  | null {i q rest} (hi : s.queries i = some q) (hst : q.stage = .getConnection)
      (hp : s.poolConn = none :: rest) : Moves s (.getConnection i)
        (setStage { s with poolConn := rest } i q
          (.destructor none (.error (.cString "Error Connection".toList))))
  | take {i q c rest connection} (hi : s.queries i = some q) (hst : q.stage = .getConnection)
      (hp : s.poolConn = some c :: rest) (hc : s.connections[c]? = some connection) :
      Moves s (.getConnection i) (setStage { s with poolConn := rest } i q
        (if stmtName gen q.query ∈ connection.stmtList then .exec c else .prepare c))
  | prepared {i q c r connection} (hi : s.queries i = some q) (hst : q.stage = .prepare c)
      (hc : s.connections[c]? = some connection) (hok : r.status = .PGRES_COMMAND_OK) :
      Moves s (.prepare i (some r)) ((s.setConnection c
        ⟨lib.prepare connection.connection (StdString.cStr (stmtName gen q.query))
          (StdString.cStr q.query) (some r),
          insert (stmtName gen q.query) connection.stmtList⟩).setStage i q (.exec c))
  | prepareFailed {i q c res e connection} (hi : s.queries i = some q)
      (hst : q.stage = .prepare c) (hc : s.connections[c]? = some connection)
      (he : prepareError res = some e) :
      Moves s (.prepare i res) ((s.setConnection c
        ⟨lib.prepare connection.connection (StdString.cStr (stmtName gen q.query))
          (StdString.cStr q.query) res, connection.stmtList⟩).setStage i q
        (.destructor (some c) (.error e)))
  | exec {i q c res connection} (hi : s.queries i = some q) (hst : q.stage = .exec c)
      (hc : s.connections[c]? = some connection) :
      Moves s (.exec i res) ((s.setConnection c
        ⟨lib.execPrepared connection.connection (StdString.cStr (stmtName gen q.query)) q.params
            res,
          connection.stmtList⟩).setStage i q (.destructor (some c) (execOut res)))
  | freeNull {i q out} (hi : s.queries i = some q) (hst : q.stage = .destructor none out) :
      Moves s (.freeConnection i) (s.setStage i q (.returned out))
  | free {i q c out} (hi : s.queries i = some q) (hst : q.stage = .destructor (some c) out) :
      Moves s (.freeConnection i)
        (setStage { s with poolConn := s.poolConn ++ [some c] } i q (.notify out))
  | notifyNone {i q out} (hi : s.queries i = some q) (hst : q.stage = .notify out)
      (hw : s.waiters = []) : Moves s (.notify i none) (s.setStage i q (.returned out))
  | notify {i j q q' out} (hi : s.queries i = some q) (hst : q.stage = .notify out) (hji : j ≠ i)
      (hj : s.queries j = some q') (hst' : q'.stage = .waiting) :
      Moves s (.notify i (some j)) (setStage { s.setStage i q (.returned out) with
        waiters := s.waiters.erase j } j q' .getConnection)
  | spurious {i q} (hi : s.queries i = some q) (hst : q.stage = .waiting) :
      Moves s (.spurious i)
        (setStage { s with waiters := s.waiters.erase i } i q .getConnection)

variable {lib gen}

theorem step_moves {s s' : Postgres S} {a : Action} (h : step lib gen s a = some s') :
    s.Moves lib gen a s' := by
  cases a with
  | run config logins =>
    obtain rfl := Option.some.inj h
    exact .run
  | begin i query param =>
    simp only [step, begin] at h
    split at h
    · cases h
    · next hi =>
      obtain rfl := Option.some.inj h
      exact .begin hi
  | getConnection i =>
    simp only [step, getConnection] at h
    split at h
    · next query params hi =>
      split at h
      · next hp =>
        obtain rfl := Option.some.inj h
        exact .wait hi rfl hp
      · next rest hp =>
        obtain rfl := Option.some.inj h
        exact .null hi rfl hp
      · next c rest hp =>
        obtain ⟨connection, hc, rfl⟩ := Option.map_eq_some_iff.mp h
        exact .take (q := ⟨query, params, .getConnection⟩) hi rfl hp hc
    · cases h
  | prepare i res =>
    simp only [step, prepare] at h
    split at h
    · next query params c hi =>
      obtain ⟨connection, hc, rfl⟩ := Option.map_eq_some_iff.mp h
      cases res with
      | none => exact .prepareFailed (q := ⟨query, params, .prepare c⟩) hi rfl hc rfl
      | some r =>
        dsimp only
        by_cases hok : r.status = .PGRES_COMMAND_OK
        · rw [if_neg (not_not.mpr hok)]
          exact .prepared (q := ⟨query, params, .prepare c⟩) hi rfl hc hok
        · rw [if_pos hok]
          exact .prepareFailed (q := ⟨query, params, .prepare c⟩) hi rfl hc
            (by rw [prepareError, if_pos hok])
    · cases h
  | exec i res =>
    simp only [step, exec] at h
    split at h
    · next query params c hi =>
      obtain ⟨connection, hc, rfl⟩ := Option.map_eq_some_iff.mp h
      exact .exec (q := ⟨query, params, .exec c⟩) hi rfl hc
    · cases h
  | freeConnection i =>
    simp only [step, freeConnection] at h
    split at h
    · next hi =>
      obtain rfl := Option.some.inj h
      exact .freeNull hi rfl
    · next hi =>
      obtain rfl := Option.some.inj h
      exact .free hi rfl
    · cases h
  | notify i w =>
    simp only [step, notify] at h
    split at h
    · next query params out hi =>
      split at h
      · split at h
        · next hw =>
          obtain rfl := Option.some.inj h
          exact .notifyNone hi rfl hw
        · cases h
      · next j =>
        rw [wake] at h
        split at h
        · next query' params' hj =>
          obtain rfl := Option.some.inj h
          rw [setStage_queries] at hj
          split at hj
          · cases hj
          · next hji => exact .notify hi rfl hji hj rfl
        · cases h
    · cases h
  | spurious i =>
    simp only [step, wake] at h
    split at h
    · next hi =>
      obtain rfl := Option.some.inj h
      exact .spurious hi rfl
    · cases h

theorem emplaceConnections_queries (lib : Libpq S) (config : Configuration) (logins : List Login)
    (s : Postgres S) : (s.emplaceConnections lib config logins).1.queries = s.queries ∧
      (s.emplaceConnections lib config logins).1.waiters = s.waiters := by
  induction logins generalizing s with
  | nil => exact ⟨rfl, rfl⟩
  | cons l logins ih =>
    rw [emplaceConnections]
    split
    · exact ⟨rfl, rfl⟩
    · exact ih _

/-- A start leaves the queries alone. -/
theorem queries_run (lib : Libpq S) (s : Postgres S) (config : Configuration)
    (logins : Nat → Login) : (s.run lib config logins).1.queries = s.queries ∧
      (s.run lib config logins).1.waiters = s.waiters := by
  have hloop := emplaceConnections_queries lib config
    ((List.range config.worker.toNat).map logins) s
  rw [run]
  split
  · exact ⟨rfl, rfl⟩
  · split
    · next h =>
      rw [h] at hloop
      exact hloop
    · next h =>
      rw [h] at hloop
      exact hloop

/-- What a step does to another query: nothing, or it wakes it. -/
theorem Moves.queries_of_ne {s s' : Postgres S} {a : Action} (h : s.Moves lib gen a s') {j : Nat}
    (ha : a.query ≠ some j) : s'.queries j = s.queries j ∨
      ∃ q, s.queries j = some q ∧ q.stage = .waiting ∧
        s'.queries j = some { q with stage := .getConnection } := by
  have hne : ∀ {i}, some i ≠ some j → j ≠ i := fun hij heq => hij (heq ▸ rfl)
  cases h with
  | run => exact .inl (congrFun (queries_run lib s _ _).1 j)
  | @notify i k q q' out hi hst hki hk hst' =>
    by_cases hjk : j = k
    · subst hjk
      exact .inr ⟨q', hk, hst', (setStage_queries ..).trans (if_pos rfl)⟩
    · refine .inl ?_
      rw [setStage_queries, if_neg hjk]
      exact (setStage_queries ..).trans (if_neg (hne ha))
  | begin | wait | null | take | prepared | prepareFailed | exec | freeNull | free | notifyNone
  | spurious =>
    refine .inl ?_
    rw [setStage_queries, if_neg (hne ha)]
    try rfl

end Postgres

end FHT.DBFacade
