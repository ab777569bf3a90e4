import FHT.Hendler.Registry
import FHT.Task.Turns

/-!
# The registry on its thread

The updates of the registry, its loop task and the functors of the program are tasks of one
`Thread`, that of `FHT_MAIN`, and wait in one queue. A call reads the pointer of its table and
posts its update later. The working maps are changed where the functor that changes them ends,
since only that thread uses them; of the two swaps of the loop task the first is a step of its
own, the second comes with the end of the functor.

## Main definitions

- `Job` — what a task of `FHT_MAIN` does
- `FhtMain` — the thread and the two tables
- `FhtMain.step` — the constructor, the calls, and the steps of the thread

## Main results

- `FhtMain.step_moves` — what one step does
- `FhtMain.sound` — in every reachable state each task does what was posted, and the loop task
  is still there
-/

namespace FHT

namespace Task.Functor

variable {F G : Type*}

/-- The function inside, if there is one. -/
def func : Functor F → Option F
  | empty => none
  | postTask func | postLoopTask func => some func

def map (f : F → G) : Functor F → Functor G
  | empty => empty
  | postTask func => postTask (f func)
  | postLoopTask func => postLoopTask (f func)

end Task.Functor

namespace Hendler

open FHT.Task

variable {U L F : Type*}

/-- What a task of `FHT_MAIN` does: it publishes the tables, or changes one of them, or is a
functor of the program. -/
inductive Job (U L F : Type*)
  | publish
  | update (u : Update U ⊕ Update L)
  | user (func : F)

/-- How the functor may end: the loop task returns `state_task_`, which is `CONTINUE` until the
registry is destroyed, and an update returns. -/
def Job.allows : Job U L F → Outcome → Bool
  | publish, o => o = .returns .CONTINUE
  | update _, o => o = .returns .FINISH
  | user _, _ => true

/-- The thread `FHT_MAIN` with the tables of the registry. `publisher` is the push of the loop
task, `calls` are the calls with what they decided to post. `examined` records the run and
decides nothing: the tasks that the worker has examined so far. -/
structure FhtMain (U L F : Type*) where
  thread : Thread (Job U L F)
  mapHendler : Published U
  mapList : Published L
  publisher : Option Nat
  calls : Nat → Option (Option (Update U ⊕ Update L))
  examined : List Nat

namespace FhtMain

/-- Before the registry is constructed. -/
def init : FhtMain U L F := ⟨.init, ⟨∅, ∅⟩, ⟨∅, ∅⟩, none, fun _ => none, []⟩

def getUniqueHendler (w : FhtMain U L F) (id : Str) : Option U := w.mapHendler.get id

def getHendler (w : FhtMain U L F) (id : Str) : Option L := w.mapList.get id

/-- The update that a call decides to post on the copy that it reads. -/
def decides (w : FhtMain U L F) : Call U L → Option (Update U ⊕ Update L)
  | .addUniqueHendler id prt => (w.mapHendler.add id prt).map .inl
  | .removeUniqueHendler id => (w.mapHendler.remove id).map .inl
  | .addHendler id prt => (w.mapList.add id prt).map .inr
  | .removeHendler id => (w.mapList.remove id).map .inr

/-- Whether the push of this id has returned. -/
def returned (w : FhtMain U L F) (i : Nat) : Prop :=
  ∃ p, w.thread.pushes i = some p ∧ p.stage = .returned

/-- What moves, with the choices of the environment. A call begins with the read of the pointer
and ends with its post; `user` is a post of the program, and `swap` the first swap of the loop
task. -/
inductive Action (U L F : Type*)
  | construct (i : Nat)
  | begin (i : Nat) (c : Call U L)
  | post (i : Nat)
  | user (i : Nat) (function : Functor F) (ms : Int)
  | swap
  | push (i : Nat) (now : Int)
  | worker (now : Int)
  | functorEnds (i : Nat) (o : Outcome)
  | timer
  | destructor
  | spurious

/-- The clock at the time of the action, where it may be read. -/
def Action.now : Action U L F → Option Int
  | .push _ now | .worker now => some now
  | _ => none

/-- The action of the thread alone, where it is one. -/
def Action.ofThread : Action U L F → Option (Thread.Action (Job U L F))
  | .push i now => some (.push i now)
  | .timer => some .timer
  | .destructor => some .destructor
  | .spurious => some .spurious
  | _ => none

/-- A step of the thread that leaves the tables alone. -/
def lift (w : FhtMain U L F) (a : Thread.Action (Job U L F)) : Option (FhtMain U L F) :=
  (Thread.step w.thread a).map fun s => { w with thread := s }

/-- Whether the constructor has returned. -/
def constructed (w : FhtMain U L F) : Bool :=
  match w.publisher with
  | none => false
  | some p =>
    match w.thread.pushes p with
    | some ⟨_, _, .returned⟩ => true
    | _ => false

/-- The worker looks at its task. -/
def examine (w : FhtMain U L F) : FhtMain U L F :=
  match w.thread.worker with
  | .examine _ t => { w with examined := w.examined ++ [t.id] }
  | _ => w

section Publish

variable [DecidableEq U] [DecidableEq L]

/-- The tables when the functor has done its job. -/
def execute (w : FhtMain U L F) : Job U L F → FhtMain U L F
  | .publish => { w with mapHendler := w.mapHendler.publish, mapList := w.mapList.publish }
  | .update (.inl u) =>
    { w with mapHendler := { w.mapHendler with map := u.run w.mapHendler.map } }
  | .update (.inr u) => { w with mapList := { w.mapList with map := u.run w.mapList.map } }
  | .user _ => w

/-- The first swap of the loop task: another thread may read before the second. -/
def swap (w : FhtMain U L F) : Option (FhtMain U L F) :=
  match w.thread.worker with
  | .running _ t =>
    match t.function.func with
    | some .publish => some { w with mapHendler := w.mapHendler.publish }
    | _ => none
  | _ => none

/-- The functor of task `i` ends. -/
def functorEnds (w : FhtMain U L F) (i : Nat) (o : Outcome) : Option (FhtMain U L F) :=
  match w.thread.worker with
  | .running _ t =>
    match t.function.func with
    | some job => if job.allows o then (w.execute job).lift (.functorEnds i o) else none
    | none => none
  | _ => none

def step : Machine (FhtMain U L F) (Action U L F) :=
  fun w a =>
    match a with
    | .construct i =>
      match w.publisher with
      | some _ => none
      | none => { w with publisher := some i }.lift (.pushBegin i (.postLoopTask .publish) 0)
    | .begin i c =>
      if w.constructed && (w.calls i).isNone && (w.thread.pushes i).isNone then
        some { w with calls := Function.update w.calls i (some (w.decides c)) }
      else none
    | .post i =>
      match w.calls i with
      | some (some u) => w.lift (.pushBegin i (.postTask (.update u)) 0)
      | _ => none
    | .user i function ms =>
      match w.calls i with
      | some _ => none
      | none => w.lift (.pushBegin i (function.map .user) ms)
    | .swap => w.swap
    | .push i now => w.lift (.push i now)
    | .worker now => w.examine.lift (.worker now)
    | .functorEnds i o => w.functorEnds i o
    | .timer => w.lift .timer
    | .destructor => w.lift .destructor
    | .spurious => w.lift .spurious

/-- What a step does. -/
inductive Moves (w : FhtMain U L F) : Action U L F → FhtMain U L F → Prop
  | construct {i w'} (hp : w.publisher = none)
      (hs : Thread.step w.thread (.pushBegin i (.postLoopTask .publish) 0) = some w'.thread)
      (hw' : w' = { w with publisher := some i, thread := w'.thread }) :
      Moves w (.construct i) w'
  | begin {i c} (hc : ∃ p q, w.publisher = some p ∧ w.thread.pushes p = some q ∧
        q.stage = .returned) (hi : w.calls i = none)
      (hp : w.thread.pushes i = none) :
      Moves w (.begin i c) { w with calls := Function.update w.calls i (some (w.decides c)) }
  | post {i u w'} (hi : w.calls i = some (some u))
      (hs : Thread.step w.thread (.pushBegin i (.postTask (.update u)) 0) = some w'.thread)
      (hw' : w' = { w with thread := w'.thread }) : Moves w (.post i) w'
  | user {i function ms w'} (hi : w.calls i = none)
      (hs : Thread.step w.thread (.pushBegin i (function.map .user) ms) = some w'.thread)
      (hw' : w' = { w with thread := w'.thread }) : Moves w (.user i function ms) w'
  | swap {b t} (hw : w.thread.worker = .running b t) (hf : t.function.func = some .publish) :
      Moves w .swap { w with mapHendler := w.mapHendler.publish }
  | worker {now w'} (hs : Thread.step w.thread (.worker now) = some w'.thread)
      (hw' : w' = { w.examine with thread := w'.thread }) : Moves w (.worker now) w'
  | beside {a a' w'} (ha : a.ofThread = some a')
      (hs : Thread.step w.thread a' = some w'.thread) (hw' : w' = { w with thread := w'.thread }) :
      Moves w a w'
  | ends {b t job o w'} (hw : w.thread.worker = .running b t) (hf : t.function.func = some job)
      (ho : job.allows o)
      (hs : Thread.step w.thread (.functorEnds t.id o) = some w'.thread)
      (hw' : w' = { w.execute job with thread := w'.thread }) : Moves w (.functorEnds t.id o) w'

omit [DecidableEq U] [DecidableEq L] in
theorem lift_eq_some {w w' : FhtMain U L F} {a : Thread.Action (Job U L F)}
    (h : w.lift a = some w') :
    Thread.step w.thread a = some w'.thread ∧ w' = { w with thread := w'.thread } := by
  obtain ⟨s, hs, rfl⟩ := Option.map_eq_some_iff.mp h
  exact ⟨hs, rfl⟩

omit [DecidableEq U] [DecidableEq L] in
theorem returned_of_constructed {w : FhtMain U L F} (h : w.constructed = true) :
    ∃ p q, w.publisher = some p ∧ w.thread.pushes p = some q ∧ q.stage = .returned := by
  rw [constructed] at h
  split at h
  · cases h
  · next p hp =>
    split at h
    · next hq => exact ⟨p, _, hp, hq, rfl⟩
    · cases h

omit [DecidableEq U] [DecidableEq L] in
@[simp] theorem examine_thread (w : FhtMain U L F) : w.examine.thread = w.thread := by
  rw [examine]
  split <;> rfl

omit [DecidableEq U] [DecidableEq L] in
/-- An examination changes nothing but its record. -/
theorem examine_rest (w : FhtMain U L F) :
    w.examine.publisher = w.publisher ∧ w.examine.calls = w.calls := by
  rw [examine]
  split <;> exact ⟨rfl, rfl⟩

@[simp] theorem execute_thread (w : FhtMain U L F) (job : Job U L F) :
    (w.execute job).thread = w.thread := by
  cases job with
  | update u => cases u <;> rfl
  | _ => rfl

/-- A job changes nothing but the tables. -/
theorem execute_rest (w : FhtMain U L F) (job : Job U L F) :
    (w.execute job).publisher = w.publisher ∧ (w.execute job).calls = w.calls ∧
      (w.execute job).examined = w.examined := by
  cases job with
  | update u => cases u <;> exact ⟨rfl, rfl, rfl⟩
  | _ => exact ⟨rfl, rfl, rfl⟩

theorem step_moves {w w' : FhtMain U L F} {a : Action U L F} (h : step w a = some w') :
    w.Moves a w' := by
  have hbeside : ∀ {a : Action U L F} {a' : Thread.Action (Job U L F)}, a.ofThread = some a' →
      w.lift a' = some w' → w.Moves a w' := by
    intro a a' ha h
    obtain ⟨hs, hw'⟩ := lift_eq_some h
    exact .beside ha hs hw'
  cases a with
  | construct i =>
    simp only [step] at h
    split at h
    · cases h
    · next hp =>
      obtain ⟨hs, hw'⟩ := lift_eq_some h
      exact .construct hp hs hw'
  | begin i c =>
    obtain ⟨hc, h⟩ := Option.ite_none_right_eq_some.mp h
    obtain rfl := Option.some.inj h
    simp only [Bool.and_eq_true, Option.isNone_iff_eq_none] at hc
    exact .begin (returned_of_constructed hc.1.1) hc.1.2 hc.2
  | post i =>
    simp only [step] at h
    split at h
    · next u hi =>
      obtain ⟨hs, hw'⟩ := lift_eq_some h
      exact .post hi hs hw'
    · cases h
  | user i function ms =>
    simp only [step] at h
    split at h
    · cases h
    · next hi =>
      obtain ⟨hs, hw'⟩ := lift_eq_some h
      exact .user hi hs hw'
  | swap =>
    simp only [step, swap] at h
    split at h
    · next b t hw =>
      split at h
      · next hf =>
        obtain rfl := Option.some.inj h
        exact .swap hw hf
      · cases h
    · cases h
  | worker now =>
    obtain ⟨hs, hw'⟩ := lift_eq_some h
    rw [examine_thread] at hs
    exact .worker hs hw'
  | functorEnds i o =>
    simp only [step, functorEnds] at h
    split at h
    · next b t hw =>
      split at h
      · next job hf =>
        obtain ⟨ho, h⟩ := Option.ite_none_right_eq_some.mp h
        obtain ⟨hs, hw'⟩ := lift_eq_some h
        rw [execute_thread] at hs
        obtain ⟨b', t', hw'', rfl⟩ :=
          (Thread.functorEnds_cases (Thread.act_of_step hs)).running
        obtain ⟨rfl, rfl⟩ := Worker.running.inj (hw.symm.trans hw'')
        exact .ends hw hf ho hs hw'
      · cases h
    · cases h
  | push i now => exact hbeside rfl h
  | timer => exact hbeside rfl h
  | destructor => exact hbeside rfl h
  | spurious => exact hbeside rfl h

/-- Why the task of a push does what it does. -/
def Asked (w : FhtMain U L F) (i : Nat) : Job U L F → Prop
  | .publish => w.publisher = some i
  | .update u => w.calls i = some (some u)
  | .user _ => True

/-- What holds in every reachable state: what was posted for the constructor and for the calls,
and that the loop task stays. -/
structure Sound (w : FhtMain U L F) : Prop where
  thread : w.thread.Sound
  publisher : ∀ p, w.publisher = some p → p ∉ w.thread.retired ∧
    ∃ stage, w.thread.pushes p = some ⟨.postLoopTask .publish, 0, stage⟩
  noCalls : w.publisher = none → ∀ i, w.calls i = none
  posted : ∀ i c p, w.calls i = some c → w.thread.pushes i = some p →
    ∃ u, c = some u ∧ p.function = .postTask (.update u) ∧ p.ms = 0
  asked : ∀ i p job, w.thread.pushes i = some p → p.function.func = some job → w.Asked i job
  examined : ∀ i ∈ w.examined, ∃ p, w.thread.pushes i = some p
  running : ∀ i, w.thread.worker.isRunning i = true → i ∈ w.examined

omit [DecidableEq U] [DecidableEq L] in
theorem sound_init : (init : FhtMain U L F).Sound := by
  refine ⟨Thread.sound_init, ?_, fun _ _ => rfl, ?_, ?_, ?_, ?_⟩
  · intro p hp
    cases hp
  · intro i c p hi
    cases hi
  · intro i p job hi
    cases hi
  · intro i hi
    cases hi
  · intro i hi
    cases hi

theorem ends_of_step {w w' : FhtMain U L F} {i : Nat} {o : Outcome}
    (h : step w (.functorEnds i o) = some w') : ∃ b t job, w.thread.worker = .running b t ∧
      t.id = i ∧ t.function.func = some job ∧
      Thread.step w.thread (.functorEnds i o) = some w'.thread ∧
      w' = { w.execute job with thread := w'.thread } := by
  cases step_moves h with
  | beside ha => cases ha
  | @ends b t job _ _ hw hf _ hs hw' => exact ⟨b, t, job, hw, rfl, hf, hs, hw'⟩

theorem worker_of_step {w w' : FhtMain U L F} {now : Int}
    (h : step w (.worker now) = some w') :
    Thread.step w.thread (.worker now) = some w'.thread := by
  cases step_moves h with
  | beside ha => cases ha
  | worker hs => exact hs

/-- The step of the thread, if there is one, with the reason for a push that it begins and with
the job that it ends. -/
theorem Moves.thread_step {w w' : FhtMain U L F} {a : Action U L F} (h : w.Moves a w')
    (hw : w.Sound) : w'.thread = w.thread ∨ ∃ a',
      Thread.step w.thread a' = some w'.thread ∧ a'.now = a.now ∧
      (∀ now, a' = .worker now → a = .worker now) ∧
      (∀ i function ms, a' = .pushBegin i function ms →
        (∀ job, function.func = some job → w'.Asked i job) ∧
        ∀ c, w'.calls i = some c → ∃ u, c = some u ∧ function = .postTask (.update u) ∧ ms = 0) ∧
      ∀ i o, a' = .functorEnds i o → a = .functorEnds i o ∧ ∃ b t job,
        w.thread.worker = .running b t ∧ t.id = i ∧ t.function.func = some job ∧
          job.allows o = true := by
  cases h with
  | begin | swap => exact .inl rfl
  | @construct i _ hp hs hw' =>
    refine .inr ⟨_, hs, rfl, by simp, ?_, by simp⟩
    rintro _ _ _ ⟨⟩
    rw [hw']
    refine ⟨?_, ?_⟩
    · rintro _ ⟨⟩
      rfl
    · intro c hc
      have hnone : w.calls i = none := hw.noCalls hp i
      cases hnone.symm.trans hc
  | @post i u _ hi hs hw' =>
    refine .inr ⟨_, hs, rfl, by simp, ?_, by simp⟩
    rintro _ _ _ ⟨⟩
    rw [hw']
    refine ⟨?_, ?_⟩
    · rintro _ ⟨⟩
      exact hi
    · intro c hc
      obtain rfl := Option.some.inj (hi.symm.trans hc)
      exact ⟨u, rfl, rfl, rfl⟩
  | @user i function ms _ hi hs hw' =>
    refine .inr ⟨_, hs, rfl, by simp, ?_, by simp⟩
    rintro _ _ _ ⟨⟩
    rw [hw']
    refine ⟨?_, ?_⟩
    · intro job hjob
      cases function with
      | empty => cases hjob
      | postTask | postLoopTask =>
        cases hjob
        trivial
    · intro c hc
      cases hi.symm.trans hc
  | worker hs => exact .inr ⟨_, hs, rfl, by simp, by simp, by simp⟩
  | @beside a a' _ ha hs =>
    refine .inr ⟨a', hs, ?_⟩
    cases a with
    | push | timer | destructor | spurious =>
      obtain rfl := Option.some.inj ha
      exact ⟨rfl, by simp, by simp, by simp⟩
    | _ => cases ha
  | @ends b t job o _ hw hf ho hs =>
    refine .inr ⟨_, hs, rfl, by simp, by simp, ?_⟩
    rintro _ _ ⟨⟩
    exact ⟨rfl, b, t, job, hw, rfl, hf, ho⟩

/-- The constructor runs once, and a call keeps what it decided. -/
theorem Moves.publisher_calls {w w' : FhtMain U L F} {a : Action U L F} (h : w.Moves a w') :
    (w'.publisher = w.publisher ∨ w.publisher = none ∧ w'.calls = w.calls ∧
      ∃ i, w'.publisher = some i ∧
        Thread.step w.thread (.pushBegin i (.postLoopTask .publish) 0) = some w'.thread) ∧
      ∀ i, w'.calls i = w.calls i ∨
        w.calls i = none ∧ w.thread.pushes i = none ∧ w'.thread = w.thread ∧
          w.publisher ≠ none := by
  cases h with
  | @construct i _ hp hs hw' =>
    refine ⟨.inr ⟨hp, ?_, i, ?_, hs⟩, fun _ => .inl ?_⟩
    all_goals rw [hw']
  | @begin i c hc hi hp =>
    refine ⟨.inl rfl, fun j => ?_⟩
    by_cases hj : j = i
    · subst hj
      obtain ⟨p, -, hpub, -⟩ := hc
      exact .inr ⟨hi, hp, rfl, by simp [hpub]⟩
    · exact .inl (Function.update_of_ne hj ..)
  | post _ _ hw' | user _ _ hw' | beside _ _ hw' =>
    rw [hw']
    exact ⟨.inl rfl, fun _ => .inl rfl⟩
  | swap => exact ⟨.inl rfl, fun _ => .inl rfl⟩
  | worker _ hw' =>
    obtain ⟨hpub, hcalls⟩ := w.examine_rest
    rw [hw']
    exact ⟨.inl hpub, fun i => .inl (congrFun hcalls i)⟩
  | @ends _ _ job _ _ _ _ _ _ hw' =>
    obtain ⟨hpub, hcalls, -⟩ := w.execute_rest job
    rw [hw']
    exact ⟨.inl hpub, fun i => .inl (congrFun hcalls i)⟩

theorem Moves.calls_new {w w' : FhtMain U L F} {a : Action U L F} (h : w.Moves a w') {i : Nat}
    {c : Option (Update U ⊕ Update L)} (hc : w'.calls i = some c) :
    w.calls i = some c ∨ ∃ call, a = .begin i call ∧ c = w.decides call := by
  cases h with
  | construct _ _ hw' | post _ _ hw' | user _ _ hw' | beside _ _ hw' =>
    rw [hw'] at hc
    exact .inl hc
  | @begin j call hcon hj hp =>
    have hc : Function.update w.calls j (some (w.decides call)) i = some c := hc
    by_cases hij : i = j
    · subst hij
      rw [Function.update_self] at hc
      exact .inr ⟨call, rfl, (Option.some.inj hc).symm⟩
    · rw [Function.update_of_ne hij] at hc
      exact .inl hc
  | swap => exact .inl hc
  | worker _ hw' =>
    rw [hw'] at hc
    exact .inl ((congrFun w.examine_rest.2 i).symm.trans hc)
  | @ends _ _ job _ _ _ _ _ _ hw' =>
    rw [hw'] at hc
    exact .inl ((congrFun (w.execute_rest job).2.1 i).symm.trans hc)

theorem Moves.asked {w w' : FhtMain U L F} {a : Action U L F} (h : w.Moves a w') {i : Nat}
    {job : Job U L F} (hi : w.Asked i job) : w'.Asked i job := by
  obtain ⟨hpub, hcalls⟩ := h.publisher_calls
  cases job with
  | publish =>
    rcases hpub with hpub | ⟨hnone, -⟩
    · exact hpub.trans hi
    · cases hnone.symm.trans hi
  | update u =>
    rcases hcalls i with hc | ⟨hnone, -⟩
    · exact hc.trans hi
    · cases hnone.symm.trans hi
  | user => trivial

/-- What is recorded of an examination. -/
theorem Moves.examined_cases {w w' : FhtMain U L F} {a : Action U L F} (h : w.Moves a w') :
    (w'.examined = w.examined ∧ ∀ now b t, a = .worker now → w.thread.worker ≠ .examine b t) ∨
      ∃ now b t, a = .worker now ∧ w.thread.worker = .examine b t ∧
        w'.examined = w.examined ++ [t.id] := by
  cases h with
  | construct _ _ hw' | post _ _ hw' | user _ _ hw' =>
    rw [hw']
    exact .inl ⟨rfl, by simp⟩
  | begin | swap => exact .inl ⟨rfl, by simp⟩
  | @beside a _ _ ha _ hw' =>
    rw [hw']
    refine .inl ⟨rfl, ?_⟩
    rintro now b t rfl
    cases ha
  | @worker now _ _ hw' =>
    rw [hw', examine]
    split
    · next b t hw => exact .inr ⟨now, b, t, rfl, hw, rfl⟩
    · next hw => exact .inl ⟨rfl, fun _ b t _ => hw b t⟩
  | @ends _ _ job _ _ _ _ _ _ hw' =>
    rw [hw']
    exact .inl ⟨(w.execute_rest job).2.2, by simp⟩

omit [DecidableEq U] [DecidableEq L] in
/-- The functor that is run is the one that was pushed. -/
theorem Sound.running_push {w : FhtMain U L F} {b : Batch} {t : Tuple (Job U L F)}
    {job : Job U L F} (h : w.Sound) (hw : w.thread.worker = .running b t)
    (hf : t.function.func = some job) : ∃ q, w.thread.pushes t.id = some q ∧
      q.function.func = some job ∧ t.id ∉ w.thread.retired := by
  have ht : t ∈ w.thread.tuples := Thread.mem_tuples_of_hand (by rw [hw]; rfl)
  obtain ⟨-, q, hq, hqf⟩ := h.thread.known t ht
  refine ⟨q, hq, hqf ▸ hf, fun hret => ?_⟩
  have hnodup := List.nodup_append.mp h.thread.nodup
  exact hnodup.2.2 t.id (List.mem_map_of_mem ht) t.id hret rfl

omit [DecidableEq U] [DecidableEq L] in
/-- The loop task never returns `FINISH`. -/
theorem Sound.publisher_stays {w : FhtMain U L F} {s' : Thread (Job U L F)}
    {a' : Thread.Action (Job U L F)} {p : Nat} {stage : PushStage} (h : w.Sound)
    (hp : w.thread.pushes p = some ⟨.postLoopTask .publish, 0, stage⟩)
    (hs : Thread.step w.thread a' = some s')
    (hends : ∀ i o, a' = .functorEnds i o → ∃ b t job, w.thread.worker = .running b t ∧
      t.id = i ∧ t.function.func = some job ∧ job.allows o = true)
    (hret : p ∈ s'.retired) : p ∈ w.thread.retired := by
  rcases (Thread.step_moves hs).retired_cases hret with hret | ⟨t, ht, rfl, hlast⟩
  · exact hret
  · obtain ⟨hf, -, hloop⟩ := h.thread.function ht hp
    rcases hlast with hempty | ⟨o, ha, ho⟩
    · cases hf.symm.trans hempty
    · obtain ⟨b, u, job, hw, hid, hjob, hallows⟩ := hends _ _ ha
      have hu : u ∈ w.thread.tuples := Thread.mem_tuples_of_hand (by rw [hw]; rfl)
      obtain ⟨hfu, -⟩ := h.thread.function hu (hid ▸ hp)
      rw [hfu] at hjob
      obtain rfl := Option.some.inj hjob
      obtain rfl : o = .returns .CONTINUE := of_decide_eq_true hallows
      simp [Outcome.isLast, hloop] at ho

theorem Sound.pushes_kept {w w' : FhtMain U L F} {a : Action U L F} (h : w.Sound)
    (hs : FhtMain.step w a = some w') {i : Nat} {p : Push (Job U L F)}
    (hi : w.thread.pushes i = some p) : ∃ p', w'.thread.pushes i = some p' ∧
      p'.function = p.function ∧ p'.ms = p.ms ∧
      (p.stage = .returned → p'.stage = .returned) := by
  rcases (step_moves hs).thread_step h with heq | ⟨a', hs', -⟩
  · exact ⟨p, heq ▸ hi, rfl, rfl, id⟩
  · obtain ⟨p', hp', hf, hms, hret, -⟩ :=
      (Thread.step_serves h.thread.fits hs').pushes_kept hi
    exact ⟨p', hp', hf, hms, hret⟩

/-- A push that has returned stays as it is. -/
theorem Sound.pushes_returned {w w' : FhtMain U L F} {a : Action U L F} (h : w.Sound)
    (hs : FhtMain.step w a = some w') {i : Nat} {function : Functor (Job U L F)} {ms : Int}
    (hi : w.thread.pushes i = some ⟨function, ms, .returned⟩) :
    w'.thread.pushes i = some ⟨function, ms, .returned⟩ := by
  obtain ⟨⟨f, m, stage⟩, hp', rfl, rfl, hret⟩ := h.pushes_kept hs hi
  obtain rfl : stage = .returned := hret rfl
  exact hp'

theorem Sound.step {w w' : FhtMain U L F} {a : Action U L F} (h : w.Sound)
    (hs : FhtMain.step w a = some w') : w'.Sound := by
  have hmoves := step_moves hs
  obtain ⟨hpub, hcalls⟩ := hmoves.publisher_calls
  have hthread : w'.thread.Sound := by
    rcases hmoves.thread_step h with heq | ⟨a', hs', -⟩
    · exact heq ▸ h.thread
    · exact h.thread.step hs'
  refine ⟨hthread, ?_, ?_, ?_, ?_, ?_, ?_⟩
  · intro p hp
    rcases hpub with hpub | ⟨-, -, i, hi, hs'⟩
    · obtain ⟨hret, stage, hpush⟩ := h.publisher p (hpub.symm.trans hp)
      obtain ⟨⟨f, ms, stage'⟩, hpush', rfl, rfl, -⟩ := h.pushes_kept hs hpush
      refine ⟨fun hi => ?_, stage', hpush'⟩
      rcases hmoves.thread_step h with heq | ⟨a', hs', -, -, -, hends⟩
      · exact hret (heq ▸ hi)
      · exact hret (h.publisher_stays hpush hs' (fun i o ha => (hends i o ha).2) hi)
    · obtain rfl := Option.some.inj (hi.symm.trans hp)
      obtain ⟨hnone, heq⟩ := Thread.eq_of_begin hs'
      rw [heq]
      refine ⟨fun hret => ?_, _, Function.update_self ..⟩
      exact h.thread.not_mem_of_pushes hnone (List.mem_append_right _ hret)
  · intro hnone i
    have hcalls' : w'.calls i = w.calls i := by
      rcases hcalls i with hc | ⟨-, -, -, hsome⟩
      · exact hc
      · rcases hpub with hpub | ⟨hp, -⟩
        · exact absurd (hpub.symm.trans hnone) hsome
        · exact absurd hp hsome
    rw [hcalls']
    rcases hpub with hpub | ⟨hp, -⟩
    · exact h.noCalls (hpub.symm.trans hnone) i
    · exact h.noCalls hp i
  · intro i c p' hc hp'
    have hold : ∀ p, w.thread.pushes i = some p → p'.function = p.function → p'.ms = p.ms →
        ∃ u, c = some u ∧ p'.function = .postTask (.update u) ∧ p'.ms = 0 := by
      intro p hp hf hms
      rcases hcalls i with hc' | ⟨-, hnone, -⟩
      · rw [hf, hms]
        exact h.posted i c p (hc'.symm.trans hc) hp
      · cases hp.symm.trans hnone
    rcases hmoves.thread_step h with heq | ⟨a', hs', -, -, hbegin, -⟩
    · exact hold p' (heq ▸ hp') rfl rfl
    · rcases h.thread.pushes_of_step hs' hp' with ⟨p, hp, hf, hms⟩ | ⟨-, ha⟩
      · exact hold p hp hf hms
      · exact (hbegin i _ _ ha).2 c hc
  · intro i p' job hp' hjob
    rcases hmoves.thread_step h with heq | ⟨a', hs', -, -, hbegin, -⟩
    · exact hmoves.asked (h.asked i p' job (heq ▸ hp') hjob)
    · rcases h.thread.pushes_of_step hs' hp' with ⟨p, hp, hf, -⟩ | ⟨-, ha⟩
      · exact hmoves.asked (h.asked i p job hp (hf ▸ hjob))
      · exact (hbegin i _ _ ha).1 job hjob
  · intro i hi
    have hexamined : ∃ p, w.thread.pushes i = some p := by
      rcases hmoves.examined_cases with ⟨heq, -⟩ | ⟨_, b, t, -, hw, heq⟩
      · exact h.examined i (heq ▸ hi)
      · rw [heq] at hi
        rcases List.mem_append.mp hi with hi | hi
        · exact h.examined i hi
        · obtain rfl := List.mem_singleton.mp hi
          obtain ⟨-, p, hp, -⟩ := h.thread.known t (Thread.mem_tuples_of_hand (by rw [hw]; rfl))
          exact ⟨p, hp⟩
    obtain ⟨p, hp⟩ := hexamined
    obtain ⟨p', hp', -⟩ := h.pushes_kept hs hp
    exact ⟨p', hp'⟩
  · intro i hr
    have hkeep : i ∈ w.examined → i ∈ w'.examined := by
      intro hi
      rcases hmoves.examined_cases with ⟨heq, -⟩ | ⟨_, _, _, -, -, heq⟩
      · exact heq ▸ hi
      · exact heq ▸ List.mem_append_left _ hi
    rcases hmoves.thread_step h with heq | ⟨a', hs', -, hworker, -⟩
    · exact hkeep (h.running i (heq ▸ hr))
    · rcases (Thread.step_serves h.thread.fits hs').isRunning_after hr with
        hr | ⟨now, b, t, ha, hw, rfl⟩
      · exact hkeep (h.running i hr)
      · rcases hmoves.examined_cases with ⟨-, hnot⟩ | ⟨_, b', t', -, hw', heq⟩
        · exact absurd hw (hnot now b t (hworker now ha))
        · obtain ⟨rfl, rfl⟩ := Worker.examine.inj (hw.symm.trans hw')
          rw [heq]
          simp

theorem sound {acts : List (Action U L F)} {w : FhtMain U L F}
    (hrun : step.run init acts = some w) : w.Sound :=
  Machine.run_invariant (I := Sound) (fun _ _ _ hu hs => hu.step hs) sound_init hrun

/-- The clock of the run does not go back. -/
def ClockNonDecreasing (acts : List (Action U L F)) : Prop :=
  (acts.filterMap Action.now).Pairwise (· ≤ ·)

/-- No task carries a time that the clock of the run has not shown. -/
theorem stamps_le {acts : List (Action U L F)} {w : FhtMain U L F} {k : Int}
    (hrun : step.run init acts = some w) (hclock : ∀ now ∈ acts.filterMap Action.now, now ≤ k) :
    ∀ t ∈ w.thread.tuples, t.ts ≤ k := by
  have hinit : ∀ i, (init : FhtMain U L F).thread.Carries i (· ≤ k) := by
    refine fun i => ⟨?_, ?_⟩
    · intro p ts hp
      cases hp
    · intro t ht
      cases ht
  have hcarries : w.Sound ∧ ∀ i, w.thread.Carries i (· ≤ k) := by
    refine Machine.run_history (P := fun a => ∀ now, a.now = some now → now ≤ k)
      (I := fun _ w => w.Sound ∧ ∀ i, w.thread.Carries i (· ≤ k)) ?_ ⟨sound_init, hinit⟩ ?_ hrun
    · rintro _ u a v ⟨hsound, hcarries⟩ ha hs
      refine ⟨hsound.step hs, fun i => ?_⟩
      rcases (step_moves hs).thread_step hsound with heq | ⟨a', hs', hnow, -⟩
      · exact heq ▸ hcarries i
      · refine (hcarries i).step (Thread.step_serves hsound.thread.fits hs') ?_ ?_
        · rintro now p rfl _ _
          exact ha now hnow.symm
        · rintro now b t rfl _ _
          exact ha now hnow.symm
    · intro a ha now hnow
      exact hclock now (List.mem_filterMap.mpr ⟨a, ha, hnow⟩)
  intro t ht
  exact ((hcarries.2 t.id).tuple t ht rfl).1

/-- Where the step reads the clock, no task carries a later time. -/
def Timely (w : FhtMain U L F) (a : Action U L F) (_ : FhtMain U L F) : Prop :=
  ∀ now, a.now = some now → ∀ t ∈ w.thread.tuples, t.ts ≤ now

theorem timely {acts : List (Action U L F)} (hclock : ClockNonDecreasing acts) :
    step.Along Timely init acts := by
  refine Machine.along_iff_forall.mpr ?_
  rintro pre a post rfl u v hu - now hnow
  refine stamps_le hu fun earlier hearlier => ?_
  rw [ClockNonDecreasing, List.filterMap_append] at hclock
  refine (List.pairwise_append.mp hclock).2.2 earlier hearlier now ?_
  exact List.mem_filterMap.mpr ⟨a, List.mem_cons_self, hnow⟩

end Publish

end FhtMain

end Hendler

end FHT
