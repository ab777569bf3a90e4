import Mathlib.Algebra.GroupWithZero.Nat
import FHT.Lib.Machine
import FHT.Lib.StdString

/-!
# The life of a server

Each `Server::run` makes an `io_context` with a listener and starts its workers in addition to
those that are in the pool already. Built with `BLOCKING_IO` a worker runs the `io_context` that it
was started for until this is stopped, else it polls the one that is there now. No worker is ever
joined, so that the destructor of the pool ends the process as soon as there is one.

## Main definitions

- `Server` — the members of `Server`
- `starts` — the calls of `run` in a list of calls, with the settings that they find

## Main results

- `Server.lifecycle` — the listener, the workers and the destructor after any calls
-/

namespace FHT.Core

/-- `m_host`, `m_port` and `m_worker`. -/
structure Settings where
  host : Str
  port : Int
  worker : Int
  deriving DecidableEq

/-- The settings of a new server; `worker` is `hardware_concurrency()`. -/
def Settings.init (worker : Int) : Settings := ⟨"localhost".toList, 10800, worker⟩

/-- A `tcp::endpoint`. -/
structure ListenerEndpoint where
  addr : Str
  port : Nat
  deriving DecidableEq

/-- What `run` listens on. `makeAddress` is `net::ip::make_address`; a host that is no address
leaves the default one, and the port is cast to `unsigned short`. -/
def Settings.endpoint (makeAddress : Str → Option Str) (s : Settings) : ListenerEndpoint :=
  ⟨(makeAddress s.host).getD "0.0.0.0".toList, (s.port % 65536).toNat⟩

/-- The members of `Server`. The `io_context`s are numbered; `listener` is the endpoint that the
last `run` has handed to its listener, which only logs it and ends if it cannot be bound. `pool`
holds for each worker the `io_context` that was there when it was started. -/
structure Server where
  settings : Settings
  ioc : Option Nat
  made : Nat
  listener : Option ListenerEndpoint
  pool : List Nat

/-- The calls on a server. Of the threads that `run` asks for the system starts `limit` at most. -/
inductive ServerCall
  | setHost (host : Str)
  | setPort (port : Int)
  | setWorker (worker : Int)
  | run (limit : Nat)

/-- How the destructor ends: in the use of a null `m_ioc`, in `std::terminate` or as it should. -/
inductive Destroyed
  | nullDeref
  | terminated
  | completed
  deriving DecidableEq

/-- The threads that a start adds. A negative `m_worker` makes `reserve` throw, and a thread that
cannot be started throws too; either is only logged. -/
def started (s : Settings) (limit : Nat) : Nat := min limit s.worker.toNat

namespace Server

variable (makeAddress : Str → Option Str)

def init (worker : Int) : Server := ⟨.init worker, none, 0, none, []⟩

def run (s : Server) (limit : Nat) : Server :=
  { s with
    ioc := some s.made
    made := s.made + 1
    listener := some (s.settings.endpoint makeAddress)
    pool := s.pool ++ List.replicate (started s.settings limit) s.made }

def step : Machine Server ServerCall
  | s, .setHost host => some { s with settings := { s.settings with host := host } }
  | s, .setPort port => some { s with settings := { s.settings with port := port } }
  | s, .setWorker worker => some { s with settings := { s.settings with worker := worker } }
  | s, .run limit => some (s.run makeAddress limit)

/-- `~Server`, with the destructor of `m_pool`: every thread is still joinable. -/
def destructor (s : Server) : Destroyed :=
  match s.ioc with
  | none => .nullDeref
  | some _ => if s.pool = [] then .completed else .terminated

/-- The workers that serve the listener, where every worker has begun before the next start. -/
def serving (s : Server) (blocking : Bool) : Nat :=
  if blocking then s.pool.countP (fun ioc => s.ioc = some ioc) else s.pool.length

end Server

/-- The settings after the calls, and for each `run` those that it finds, with its limit. -/
def starts (settings : Settings) (calls : List ServerCall) : Settings × List (Settings × Nat) :=
  calls.foldl (fun p call =>
    match call with
    | .setHost host => ({ p.1 with host := host }, p.2)
    | .setPort port => ({ p.1 with port := port }, p.2)
    | .setWorker worker => ({ p.1 with worker := worker }, p.2)
    | .run limit => (p.1, p.2 ++ [(p.1, limit)])) (settings, [])

namespace Server

variable {makeAddress : Str → Option Str}

/-- What the starts have made of the server. -/
structure After (makeAddress : Str → Option Str) (runs : List (Settings × Nat)) (s : Server) :
    Prop where
  made : s.made = runs.length
  ioc : s.ioc = if runs = [] then none else some (runs.length - 1)
  listener : s.listener = runs.getLast?.map fun r => r.1.endpoint makeAddress
  length : s.pool.length = (runs.map fun r => started r.1 r.2).sum
  last : s.pool.countP (fun ioc => ioc = runs.length - 1) =
    (runs.getLast?.map fun r => started r.1 r.2).getD 0
  lt : ∀ ioc ∈ s.pool, ioc < runs.length

theorem After.init (worker : Int) : After makeAddress [] (Server.init worker) where
  made := by simp [Server.init]
  ioc := by simp [Server.init]
  listener := by simp [Server.init]
  length := by simp [Server.init]
  last := by simp [Server.init]
  lt := by simp [Server.init]

theorem After.run {runs : List (Settings × Nat)} {s : Server} (h : After makeAddress runs s)
    (limit : Nat) :
    After makeAddress (runs ++ [(s.settings, limit)]) (s.run makeAddress limit) where
  made := by simp [Server.run, h.made]
  ioc := by simp [Server.run, h.made]
  listener := by simp [Server.run]
  length := by simp [Server.run, h.length]
  last := by
    -- the earlier workers run earlier contexts
    have hold : s.pool.countP (fun ioc => ioc = runs.length) = 0 :=
      List.countP_eq_zero.mpr fun ioc hioc => by simpa using Nat.ne_of_lt (h.lt ioc hioc)
    simp [Server.run, h.made, hold, List.countP_replicate]
  lt := by
    intro ioc hioc
    rw [List.length_append, List.length_singleton]
    rcases List.mem_append.mp hioc with hioc | hioc
    · exact Nat.lt_succ_of_lt (h.lt ioc hioc)
    · rw [List.eq_of_mem_replicate hioc, h.made]
      exact Nat.lt_succ_self _

theorem After.of_settings {runs : List (Settings × Nat)} {s : Server}
    (h : After makeAddress runs s) (settings : Settings) :
    After makeAddress runs { s with settings := settings } := ⟨h.1, h.2, h.3, h.4, h.5, h.6⟩

theorem run_after {worker : Int} {calls : List ServerCall} {s : Server}
    (hrun : (step makeAddress).run (init worker) calls = some s) :
    s.settings = (starts (.init worker) calls).1 ∧
      After makeAddress (starts (.init worker) calls).2 s := by
  refine Machine.run_history (P := fun _ => True) (I := fun calls s =>
    s.settings = (starts (.init worker) calls).1 ∧
      After makeAddress (starts (.init worker) calls).2 s) ?_ ?_ (fun _ _ => trivial) hrun
  · rintro calls s call t ⟨hsettings, hafter⟩ - hstep
    rw [starts, List.foldl_append]
    cases call with
    | setHost | setPort | setWorker =>
      obtain rfl := Option.some.inj hstep
      exact ⟨by simp only [hsettings]; rfl, hafter.of_settings _⟩
    | run limit =>
      obtain rfl := Option.some.inj hstep
      refine ⟨hsettings, ?_⟩
      have hnext := hafter.run limit
      rw [hsettings] at hnext
      exact hnext
  · exact ⟨rfl, After.init worker⟩

/-- After any calls the listener was handed what the last `run` has found set, and is to listen
there if it can be bound. It is served by the workers of all starts, or with `BLOCKING_IO` by those
of the last start. The destructor uses a null pointer if there was no start, and ends the process
unless no start has added a worker. -/
theorem lifecycle {worker : Int} {calls : List ServerCall} {s : Server}
    (hrun : (step makeAddress).run (init worker) calls = some s) :
    let runs := (starts (.init worker) calls).2
    (s.listener = runs.getLast?.map fun r => r.1.endpoint makeAddress) ∧
    s.serving false = (runs.map fun r => started r.1 r.2).sum ∧
    s.serving true = (runs.getLast?.map fun r => started r.1 r.2).getD 0 ∧
    (s.destructor = .nullDeref ↔ runs = []) ∧
    (s.destructor = .completed ↔ runs ≠ [] ∧ ∀ r ∈ runs, r.2 = 0 ∨ r.1.worker ≤ 0) := by
  intro runs
  obtain ⟨-, hafter⟩ := run_after hrun
  have hioc : s.ioc = none ↔ runs = [] := by
    rw [hafter.ioc]
    split <;> simp_all [runs]
  have hpool : s.pool = [] ↔ ∀ r ∈ runs, r.2 = 0 ∨ r.1.worker ≤ 0 := by
    rw [← List.length_eq_zero_iff, hafter.length, List.sum_eq_zero_iff_forall_eq_nat]
    simp only [List.forall_mem_map, started, Nat.min_eq_zero_iff, Int.toNat_eq_zero]
    rfl
  refine ⟨hafter.listener, hafter.length, ?_, ?_, ?_⟩
  · rw [← hafter.last, serving, if_pos rfl]
    refine List.countP_congr fun ioc hmem => ?_
    have hne : runs ≠ [] := List.ne_nil_of_length_pos (Nat.zero_lt_of_lt (hafter.lt ioc hmem))
    rw [hafter.ioc, if_neg hne]
    simp [eq_comm]
  · rw [← hioc, destructor]
    cases s.ioc with
    | none => simp
    | some ioc => by_cases h : s.pool = [] <;> simp [h]
  · rw [← hpool, ne_eq, ← hioc, destructor]
    cases s.ioc with
    | none => simp
    | some ioc => by_cases h : s.pool = [] <;> simp [h]

/-- A second start with one worker keeps the two of the first. -/
theorem lifecycle_restart : ∃ s,
    (step fun _ => none).run (init 4) [.setWorker 2, .run 2, .setWorker 1, .run 5] = some s ∧
      s.serving false = 3 ∧ s.serving true = 1 ∧ s.destructor ≠ .completed := by
  refine ⟨_, rfl, ?_⟩
  obtain ⟨-, hall, hlast, -, hcompleted⟩ :=
    @lifecycle (fun _ => none) 4 [.setWorker 2, .run 2, .setWorker 1, .run 5] _ rfl
  refine ⟨hall, hlast, fun h => ?_⟩
  have hfirst := (hcompleted.mp h).2 (⟨"localhost".toList, 10800, 2⟩, 2) (List.mem_cons_self ..)
  simp at hfirst

end Server

end FHT.Core
