import Mathlib.Logic.Function.Basic
import FHT.Lib.Machine
import FHT.Lib.Thrown

/-!
# The worker thread

A `Thread` owns a queue of tasks, the worker that runs `Thread::loop`, and an `internalThread`
whose timer loop ends the pause between two batches. Clients push from outside, or from inside
a functor while the worker runs it. The steps are those at which another thread can come in
between; a section under a lock is one step, except where it calls out.

## Main definitions

- `Thread` — the members of `Thread` and `internalThread`, with the position of each thread
- `Thread.workerStep`, `Thread.timerStep`, `Thread.destructorStep`, `Thread.pushStep`
- `Thread.step` — the interleaving of all of them
-/

namespace FHT.Task

/-- `iTask::state`, returned by a functor. -/
inductive State
  | FINISH
  | CONTINUE
  deriving DecidableEq

/-- How a run of a functor ends. -/
inductive Outcome
  | returns (st : State)
  | throws (e : Thrown)
  deriving DecidableEq

/-- Whether the task leaves the queue after a run that ends so. -/
def Outcome.isLast : Outcome → Bool
  | returns .CONTINUE => false
  | returns .FINISH | throws _ => true

/-- A functor given to `Thread::push`: an empty `std::function`, the lambda that `postTask`
puts around `func`, or what `postLoopTask` passes on. -/
inductive Functor (F : Type*)
  | empty
  | postTask (func : F)
  | postLoopTask (func : F)

/-- The lambda of `postTask` returns `FINISH` if `func` returns. -/
def Functor.allows {F : Type*} : Functor F → Outcome → Bool
  | empty, _ => false
  | postTask _, o => o.isLast
  | postLoopTask _, _ => true

/-- A queued task. `id` is the push that made it; times are in clock ticks, `ms` in
milliseconds. -/
structure Tuple (F : Type*) where
  id : Nat
  function : Functor F
  ms : Int
  isLoop : Bool
  ts : Int

/-- Ticks of `high_resolution_clock` in a millisecond. -/
def ticksPerMs : Int := 1000000

/-- `duration_cast<milliseconds>(realtime - timestamp).count()`, which truncates. -/
def difftime (realtime timestamp : Int) : Int := (realtime - timestamp).tdiv ticksPerMs

/-- The locals of one pass of `Thread::loop`: `size` is what `sizeTask` counted, `remaining`
the loop counter. -/
structure Batch where
  realtime : Int
  size : Nat
  remaining : Nat
  sleep : Int

/-- Where the worker is. From `closing` to `relock` it is in the destructor of `size_task`:
`isWait` holds the mutex and is about to set `m_wait`, `retWait` is about to read it back. -/
inductive Worker (F : Type*)
  | head
  | count (realtime : Int)
  -- in `condition_.wait` of `sizeTask`, on an empty queue
  | sleeping (realtime : Int)
  | next (b : Batch)
  | examine (b : Batch) (t : Tuple F)
  | running (b : Batch) (t : Tuple F)
  | stamp (b : Batch) (t : Tuple F)
  | put (b : Batch) (t : Tuple F)
  | closing (size : Nat)
  | isWait
  | retWait
  | blocked
  | relock
  | exited
  -- `std::terminate` has run
  | terminated
  -- `queue_.front()` was called on an empty queue
  | fault

/-- Where the timer thread is in `internalThread::loop`; `ready` and `notify` are in
`m_ready()`, which is `putTask({})`. -/
inductive Timer
  | head
  | napping
  | testing
  -- after the unlock: the two halves of `m_wait = !m_wait`
  | toggleRead
  | toggleWrite (v : Bool)
  | sleeping
  | ready
  | notify
  | reset
  | exited
  deriving DecidableEq

/-- Where `~Thread` is. -/
inductive Destructor
  | alive
  | joinWorker
  | joinTimer
  | joined
  | destroyed
  deriving DecidableEq

/-- Where a call of `Thread::push` is: after `setSleep`, after it read the clock, after the
task was queued, after `notify_one`. -/
inductive PushStage
  | begun
  | stamped (ts : Int)
  | queued
  | returned

/-- A call of `Thread::push`. -/
structure Push (F : Type*) where
  function : Functor F
  ms : Int
  stage : PushStage

/-- Whether the task of the call has been queued. -/
def Push.entered {F : Type*} (p : Push F) : Bool :=
  match p.stage with
  | .begun | .stamped _ => false
  | .queued | .returned => true

/-- The members `queue_`, `isRun_` of `Thread` and `m_sleep`, `m_wait`, `isRun_` of its
`internalThread` (here `timerRun`), with the positions of the threads. The last three fields
record the run and decide nothing: the tasks given up so far, the tasks examined in the
current batch and the number of batches. -/
structure Thread (F : Type*) where
  queue : List (Tuple F)
  isRun : Bool
  sleep : Int
  wait : Bool
  timerRun : Bool
  worker : Worker F
  timer : Timer
  destructor : Destructor
  pushes : Nat → Option (Push F)
  retired : List Nat
  seen : List Nat
  batches : Nat

namespace Thread

variable {F : Type*}

/-- After the constructor: both threads are about to enter their loops. -/
def init : Thread F where
  queue := []
  isRun := true
  sleep := -1
  wait := false
  timerRun := true
  worker := .head
  timer := .head
  destructor := .alive
  pushes := fun _ => none
  retired := []
  seen := []
  batches := 0

/-- Whether `mutex` can be locked: only `~size` keeps it over more than one step. -/
def mutexFree (s : Thread F) : Bool :=
  match s.worker with
  | .isWait | .retWait => false
  | _ => true

/-- Whether `m_mx` can be locked. -/
def mxFree (s : Thread F) : Bool :=
  match s.worker with
  | .retWait => false
  | _ => true

/-- The worker leaves `condition_.wait`; nobody else waits there. -/
def notifyOne (s : Thread F) : Thread F :=
  { s with worker := match s.worker with
      | .sleeping realtime => .count realtime
      | .blocked => .relock
      | w => w }

/-- `Thread::push` is called: `setSleep(-1)`. -/
def pushBegin (s : Thread F) (i : Nat) (function : Functor F) (ms : Int) : Option (Thread F) :=
  match s.pushes i with
  | some _ => none
  | none => some { s with
      sleep := -1
      pushes := Function.update s.pushes i (some ⟨function, ms, .begun⟩) }

/-- The call `i` goes on: it reads the clock, queues its task, notifies. -/
def pushStep (s : Thread F) (i : Nat) (now : Int) : Option (Thread F) :=
  match s.pushes i with
  | none => none
  | some p =>
    match p.stage with
    | .begun => some { s with
        pushes := Function.update s.pushes i (some { p with stage := .stamped now }) }
    | .stamped ts =>
      if s.mutexFree then some { s with
        queue := s.queue ++ [⟨i, p.function, p.ms, true, ts⟩]
        pushes := Function.update s.pushes i (some { p with stage := .queued }) }
      else none
    | .queued => some <| notifyOne { s with
        pushes := Function.update s.pushes i (some { p with stage := .returned }) }
    | .returned => none

/-- A step of `Thread::loop`; `now` is the clock, where the step reads it. -/
def workerStep (s : Thread F) (now : Int) : Option (Thread F) :=
  match s.worker with
  | .head => some { s with worker := if s.isRun then .count now else .exited }
  | .count realtime =>
    match s.queue with
    | [] => some { s with worker := .sleeping realtime }
    | t :: q => some { s with
        worker := .next ⟨realtime, (t :: q).length, (t :: q).length, 0⟩
        seen := []
        batches := s.batches + 1 }
  | .next b =>
    if b.remaining = 0 then some { s with
      sleep := if b.sleep = 0 then 1 else b.sleep
      worker := .closing b.size }
    else
      match s.queue with
      | [] => some { s with worker := .fault }
      | t :: q => some { s with queue := q, worker := .examine b t }
  | .examine b t =>
    let b := { b with sleep := if b.sleep > t.ms then t.ms else b.sleep }
    let s := { s with seen := s.seen ++ [t.id] }
    if difftime b.realtime t.ts < t.ms then some { s with worker := .put b t }
    else
      match t.function with
      | .empty => some { s with
          retired := s.retired ++ [t.id]
          worker := .next { b with remaining := b.remaining - 1 } }
      | .postTask _ | .postLoopTask _ => some { s with worker := .running b t }
  | .stamp b t => some { s with worker := .put b { t with ts := now } }
  | .put b t => some { s with
      queue := s.queue ++ [t]
      worker := .next { b with remaining := b.remaining - 1 } }
  | .closing size => some { s with worker := if size > 0 then .isWait else .head }
  | .isWait => some { s with wait := decide (s.sleep > 0), worker := .retWait }
  | .retWait => some { s with worker := if s.wait then .blocked else .head }
  | .relock => some { s with worker := .isWait }
  | .sleeping _ | .running _ _ | .blocked | .exited | .terminated | .fault => none

/-- The functor of task `i` ends. An exception leaves the batch through `~size`; the handler
of the loop catches a `std::exception` and nothing else. -/
def functorEnds (s : Thread F) (i : Nat) (o : Outcome) : Option (Thread F) :=
  match s.worker with
  | .running b t =>
    if t.id = i ∧ t.function.allows o then
      match o with
      | .returns .CONTINUE =>
        if t.isLoop then some { s with worker := .stamp b t }
        else some { s with
          retired := s.retired ++ [t.id]
          worker := .next { b with remaining := b.remaining - 1 } }
      | .returns .FINISH => some { s with
          retired := s.retired ++ [t.id]
          worker := .next { b with remaining := b.remaining - 1 } }
      | .throws e => some { s with
          retired := s.retired ++ [t.id]
          worker := if e.isException then .closing b.size else .terminated }
    else none
  | _ => none

/-- A step of `internalThread::loop`. -/
def timerStep (s : Thread F) : Option (Thread F) :=
  match s.timer with
  | .head => some { s with timer := if s.timerRun then .napping else .exited }
  | .napping => some { s with timer := .testing }
  | .testing =>
    if s.mxFree then some { s with timer := if s.wait then .toggleRead else .head } else none
  | .toggleRead => some { s with timer := .toggleWrite (!s.wait) }
  | .toggleWrite v => some { s with wait := v, timer := .sleeping }
  | .sleeping => some { s with timer := .ready }
  | .ready => if s.mutexFree then some { s with timer := .notify } else none
  | .notify => some (notifyOne { s with timer := .reset })
  | .reset => some { s with sleep := -1, timer := .head }
  | .exited => none

/-- A step of `~Thread`. The members are destroyed after both joins, and only then does
`~internalThread` clear the flag of the timer loop. -/
def destructorStep (s : Thread F) : Option (Thread F) :=
  match s.destructor with
  | .alive => some { s with isRun := false, destructor := .joinWorker }
  | .joinWorker =>
    match s.worker with
    | .exited => some { s with destructor := .joinTimer }
    | _ => none
  | .joinTimer =>
    match s.timer with
    | .exited => some { s with destructor := .joined }
    | _ => none
  | .joined => some { s with timerRun := false, destructor := .destroyed }
  | .destroyed => none

/-- `condition_.wait` returns without a notification. -/
def spurious (s : Thread F) : Option (Thread F) :=
  match s.worker with
  | .sleeping _ | .blocked => some s.notifyOne
  | _ => none

/-- What moves, with the choices of the environment. -/
inductive Action (F : Type*)
  | pushBegin (i : Nat) (function : Functor F) (ms : Int)
  | push (i : Nat) (now : Int)
  | worker (now : Int)
  | functorEnds (i : Nat) (o : Outcome)
  | timer
  | destructor
  | spurious

/-- Whether the process has ended or the object is gone. -/
def dead (s : Thread F) : Bool :=
  match s.worker, s.destructor with
  | .terminated, _ | .fault, _ | _, .destroyed => true
  | _, _ => false

def act (s : Thread F) : Action F → Option (Thread F)
  | .pushBegin i function ms => s.pushBegin i function ms
  | .push i now => s.pushStep i now
  | .worker now => s.workerStep now
  | .functorEnds i o => s.functorEnds i o
  | .timer => s.timerStep
  | .destructor => s.destructorStep
  | .spurious => s.spurious

def step : Machine (Thread F) (Action F) :=
  fun s a => if s.dead then none else s.act a

theorem act_of_step {s s' : Thread F} {a : Action F} (h : step s a = some s') :
    s.act a = some s' := by
  by_cases hd : s.dead
  · simp [step, hd] at h
  · simpa [step, hd] using h

end Thread

end FHT.Task
