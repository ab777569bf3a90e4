import FHT.Task.Thread

/-!
# What the steps do

Each function of the thread is split into its cases once. A case says where the thread was, what
it found there and the state it leaves; the modules on batches, on the order of the tasks, on the
pause and on the shutdown read their own facts off these cases.

## Main results

- `Thread.pushStep_cases`, `Thread.workerStep_cases`, `Thread.functorEnds_cases`,
  `Thread.timerStep_cases`, `Thread.destructorStep_cases` — the cases of each function
- `Thread.Idle` — the timer thread and the destructor leave the tasks alone
-/

namespace FHT.Task

variable {F : Type*}

/-- The locals after a task with the delay `ms` was examined. -/
def Batch.sleepAtMost (b : Batch) (ms : Int) : Batch :=
  { b with sleep := if b.sleep > ms then ms else b.sleep }

namespace Thread

theorem pushBegin_eq_some {s s' : Thread F} {i : Nat} {function : Functor F} {ms : Int}
    (h : s.pushBegin i function ms = some s') : s.pushes i = none ∧ s' = { s with
      sleep := -1
      pushes := Function.update s.pushes i (some ⟨function, ms, .begun⟩) } := by
  rw [pushBegin] at h
  split at h
  · cases h
  · next hi => exact ⟨hi, (Option.some.inj h).symm⟩

theorem eq_of_begin {s s' : Thread F} {i : Nat} {function : Functor F} {ms : Int}
    (h : step s (.pushBegin i function ms) = some s') : s.pushes i = none ∧ s' = { s with
      sleep := -1
      pushes := Function.update s.pushes i (some ⟨function, ms, .begun⟩) } :=
  pushBegin_eq_some (act_of_step h)

theorem spurious_eq_some {s s' : Thread F} (h : s.spurious = some s') : s' = s.notifyOne := by
  rw [spurious] at h
  split at h
  · exact (Option.some.inj h).symm
  · exact (Option.some.inj h).symm
  · cases h

/-- What `pushStep` does, by the stage of the call. -/
inductive PushStep (s : Thread F) (i : Nat) (now : Int) : Thread F → Prop
  | stamp {p} (hi : s.pushes i = some p) (hst : p.stage = .begun) :
      PushStep s i now { s with
        pushes := Function.update s.pushes i (some { p with stage := .stamped now }) }
  | enqueue {p ts} (hi : s.pushes i = some p) (hst : p.stage = .stamped ts) :
      PushStep s i now { s with
        queue := s.queue ++ [⟨i, p.function, p.ms, true, ts⟩]
        pushes := Function.update s.pushes i (some { p with stage := .queued }) }
  | notify {p} (hi : s.pushes i = some p) (hst : p.stage = .queued) :
      PushStep s i now (notifyOne { s with
        pushes := Function.update s.pushes i (some { p with stage := .returned }) })

theorem pushStep_cases {s s' : Thread F} {i : Nat} {now : Int}
    (h : s.pushStep i now = some s') : s.PushStep i now s' := by
  rw [pushStep] at h
  split at h
  · cases h
  · next p hi =>
    split at h
    · next hst =>
      obtain rfl := Option.some.inj h
      exact .stamp hi hst
    · next ts hst =>
      split at h
      · obtain rfl := Option.some.inj h
        exact .enqueue hi hst
      · cases h
    · next hst =>
      obtain rfl := Option.some.inj h
      exact .notify hi hst
    · cases h

/-- What `workerStep` does, by where the worker is and, in a batch, what it finds. -/
inductive WorkerStep (s : Thread F) (now : Int) : Thread F → Prop
  | head (hw : s.worker = .head) :
      WorkerStep s now { s with worker := if s.isRun then .count now else .exited }
  | sleep {realtime} (hw : s.worker = .count realtime) (hq : s.queue = []) :
      WorkerStep s now { s with worker := .sleeping realtime }
  | count {realtime} (hw : s.worker = .count realtime) (hq : s.queue ≠ []) :
      WorkerStep s now { s with
        worker := .next ⟨realtime, s.queue.length, s.queue.length, 0⟩
        seen := []
        batches := s.batches + 1 }
  | finish {b} (hw : s.worker = .next b) (hr : b.remaining = 0) :
      WorkerStep s now { s with
        sleep := if b.sleep = 0 then 1 else b.sleep
        worker := .closing b.size }
  | fault {b} (hw : s.worker = .next b) (hr : b.remaining ≠ 0) (hq : s.queue = []) :
      WorkerStep s now { s with worker := .fault }
  | pop {b t q} (hw : s.worker = .next b) (hr : b.remaining ≠ 0) (hq : s.queue = t :: q) :
      WorkerStep s now { s with queue := q, worker := .examine b t }
  | early {b t} (hw : s.worker = .examine b t) (hd : difftime b.realtime t.ts < t.ms) :
      WorkerStep s now { s with
        seen := s.seen ++ [t.id]
        worker := .put (b.sleepAtMost t.ms) t }
  | drop {b t} (hw : s.worker = .examine b t) (hd : ¬ difftime b.realtime t.ts < t.ms)
      (hf : t.function = .empty) :
      WorkerStep s now { s with
        seen := s.seen ++ [t.id]
        retired := s.retired ++ [t.id]
        worker := .next { b.sleepAtMost t.ms with remaining := b.remaining - 1 } }
  | run {b t} (hw : s.worker = .examine b t) (hd : ¬ difftime b.realtime t.ts < t.ms)
      (hf : t.function ≠ .empty) :
      WorkerStep s now { s with
        seen := s.seen ++ [t.id]
        worker := .running (b.sleepAtMost t.ms) t }
  | stamp {b t} (hw : s.worker = .stamp b t) :
      WorkerStep s now { s with worker := .put b { t with ts := now } }
  | put {b t} (hw : s.worker = .put b t) :
      WorkerStep s now { s with
        queue := s.queue ++ [t]
        worker := .next { b with remaining := b.remaining - 1 } }
  | closing {size} (hw : s.worker = .closing size) :
      WorkerStep s now { s with worker := if size > 0 then .isWait else .head }
  | isWait (hw : s.worker = .isWait) :
      WorkerStep s now { s with wait := decide (s.sleep > 0), worker := .retWait }
  | retWait (hw : s.worker = .retWait) :
      WorkerStep s now { s with worker := if s.wait then .blocked else .head }
  | relock (hw : s.worker = .relock) : WorkerStep s now { s with worker := .isWait }

theorem workerStep_cases {s s' : Thread F} {now : Int} (h : s.workerStep now = some s') :
    s.WorkerStep now s' := by
  rw [workerStep] at h
  cases hw : s.worker with
  | head =>
    rw [hw] at h
    obtain rfl := Option.some.inj h
    exact .head hw
  | count realtime =>
    simp only [hw] at h
    split at h
    · next hq =>
      obtain rfl := Option.some.inj h
      exact .sleep hw hq
    · next t q hq =>
      obtain rfl := Option.some.inj h
      rw [← hq]
      exact .count hw (hq ▸ List.cons_ne_nil t q)
  | next b =>
    simp only [hw] at h
    split at h
    · next hr =>
      obtain rfl := Option.some.inj h
      exact .finish hw hr
    · next hr =>
      split at h
      · next hq =>
        obtain rfl := Option.some.inj h
        exact .fault hw hr hq
      · next t q hq =>
        obtain rfl := Option.some.inj h
        exact .pop hw hr hq
  | examine b t =>
    simp only [hw] at h
    split at h
    · next hd =>
      obtain rfl := Option.some.inj h
      exact .early hw hd
    · next hd =>
      split at h
      · next hf =>
        obtain rfl := Option.some.inj h
        exact .drop hw hd hf
      · next hf =>
        obtain rfl := Option.some.inj h
        exact .run hw hd (by simp [hf])
      · next hf =>
        obtain rfl := Option.some.inj h
        exact .run hw hd (by simp [hf])
  | stamp b t =>
    rw [hw] at h
    obtain rfl := Option.some.inj h
    exact .stamp hw
  | put b t =>
    rw [hw] at h
    obtain rfl := Option.some.inj h
    exact .put hw
  | closing size =>
    rw [hw] at h
    obtain rfl := Option.some.inj h
    exact .closing hw
  | isWait =>
    rw [hw] at h
    obtain rfl := Option.some.inj h
    exact .isWait hw
  | retWait =>
    rw [hw] at h
    obtain rfl := Option.some.inj h
    exact .retWait hw
  | relock =>
    rw [hw] at h
    obtain rfl := Option.some.inj h
    exact .relock hw
  | sleeping | running | blocked | exited | terminated | fault =>
    rw [hw] at h
    cases h

/-- What `functorEnds` does: the task goes on to be requeued, or is retired after a last run or
by an exception. -/
inductive FunctorEnds (s : Thread F) : Nat → Outcome → Thread F → Prop
  | again {b t} (hw : s.worker = .running b t) (hf : t.function.allows (.returns .CONTINUE))
      (hl : t.isLoop = true) :
      FunctorEnds s t.id (.returns .CONTINUE) { s with worker := .stamp b t }
  | retire {b t st} (hw : s.worker = .running b t) (hf : t.function.allows (.returns st))
      (hl : st = .FINISH ∨ t.isLoop = false) :
      FunctorEnds s t.id (.returns st) { s with
        retired := s.retired ++ [t.id]
        worker := .next { b with remaining := b.remaining - 1 } }
  | throw {b t e} (hw : s.worker = .running b t) (hf : t.function.allows (.throws e)) :
      FunctorEnds s t.id (.throws e) { s with
        retired := s.retired ++ [t.id]
        worker := if e.isException then .closing b.size else .terminated }

theorem functorEnds_cases {s s' : Thread F} {i : Nat} {o : Outcome}
    (h : s.functorEnds i o = some s') : s.FunctorEnds i o s' := by
  rw [functorEnds] at h
  split at h
  · next b t hw =>
    split at h
    · next hc =>
      obtain ⟨rfl, hf⟩ := hc
      split at h
      · split at h
        · next hl =>
          obtain rfl := Option.some.inj h
          exact .again hw hf hl
        · next hl =>
          obtain rfl := Option.some.inj h
          exact .retire hw hf (.inr (Bool.eq_false_iff.mpr hl))
      · obtain rfl := Option.some.inj h
        exact .retire hw hf (.inl rfl)
      · obtain rfl := Option.some.inj h
        exact .throw hw hf
    · cases h
  · cases h

/-- The worker is in the functor that ends. -/
theorem FunctorEnds.running {s s' : Thread F} {i : Nat} {o : Outcome}
    (h : s.FunctorEnds i o s') : ∃ b t, s.worker = .running b t ∧ t.id = i := by
  cases h with
  | again hw | retire hw | throw hw => exact ⟨_, _, hw, rfl⟩

/-- What `timerStep` does, by where the timer thread is. -/
inductive TimerStep (s : Thread F) : Thread F → Prop
  | head (ht : s.timer = .head) :
      TimerStep s { s with timer := if s.timerRun then .napping else .exited }
  | nap (ht : s.timer = .napping) : TimerStep s { s with timer := .testing }
  | test (ht : s.timer = .testing) :
      TimerStep s { s with timer := if s.wait then .toggleRead else .head }
  | toggleRead (ht : s.timer = .toggleRead) : TimerStep s { s with timer := .toggleWrite (!s.wait) }
  | toggleWrite {v} (ht : s.timer = .toggleWrite v) :
      TimerStep s { s with wait := v, timer := .sleeping }
  | sleep (ht : s.timer = .sleeping) : TimerStep s { s with timer := .ready }
  | ready (ht : s.timer = .ready) : TimerStep s { s with timer := .notify }
  | notify (ht : s.timer = .notify) : TimerStep s (notifyOne { s with timer := .reset })
  | reset (ht : s.timer = .reset) : TimerStep s { s with sleep := -1, timer := .head }

theorem timerStep_cases {s s' : Thread F} (h : s.timerStep = some s') : s.TimerStep s' := by
  rw [timerStep] at h
  cases ht : s.timer with
  | head =>
    rw [ht] at h
    obtain rfl := Option.some.inj h
    exact .head ht
  | napping =>
    rw [ht] at h
    obtain rfl := Option.some.inj h
    exact .nap ht
  | testing =>
    simp only [ht] at h
    obtain ⟨-, h⟩ := Option.ite_none_right_eq_some.mp h
    obtain rfl := Option.some.inj h
    exact .test ht
  | toggleRead =>
    rw [ht] at h
    obtain rfl := Option.some.inj h
    exact .toggleRead ht
  | toggleWrite v =>
    rw [ht] at h
    obtain rfl := Option.some.inj h
    exact .toggleWrite ht
  | sleeping =>
    rw [ht] at h
    obtain rfl := Option.some.inj h
    exact .sleep ht
  | ready =>
    simp only [ht] at h
    obtain ⟨-, h⟩ := Option.ite_none_right_eq_some.mp h
    obtain rfl := Option.some.inj h
    exact .ready ht
  | notify =>
    rw [ht] at h
    obtain rfl := Option.some.inj h
    exact .notify ht
  | reset =>
    rw [ht] at h
    obtain rfl := Option.some.inj h
    exact .reset ht
  | exited =>
    rw [ht] at h
    cases h

/-- What `destructorStep` does, by where `~Thread` is. -/
inductive DestructorStep (s : Thread F) : Thread F → Prop
  | stop (hd : s.destructor = .alive) :
      DestructorStep s { s with isRun := false, destructor := .joinWorker }
  | joinWorker (hd : s.destructor = .joinWorker) (hw : s.worker = .exited) :
      DestructorStep s { s with destructor := .joinTimer }
  | joinTimer (hd : s.destructor = .joinTimer) (ht : s.timer = .exited) :
      DestructorStep s { s with destructor := .joined }
  | destroy (hd : s.destructor = .joined) :
      DestructorStep s { s with timerRun := false, destructor := .destroyed }

theorem destructorStep_cases {s s' : Thread F} (h : s.destructorStep = some s') :
    s.DestructorStep s' := by
  rw [destructorStep] at h
  split at h
  · next hd =>
    obtain rfl := Option.some.inj h
    exact .stop hd
  · next hd =>
    split at h
    · next hw =>
      obtain rfl := Option.some.inj h
      exact .joinWorker hd hw
    · cases h
  · next hd =>
    split at h
    · next ht =>
      obtain rfl := Option.some.inj h
      exact .joinTimer hd ht
    · cases h
  · next hd =>
    obtain rfl := Option.some.inj h
    exact .destroy hd
  · cases h

/-- A step that leaves the tasks alone; it may wake the worker. -/
structure Idle (s s' : Thread F) : Prop where
  worker : s'.worker = s.worker ∨ s'.worker = s.notifyOne.worker
  queue : s'.queue = s.queue
  pushes : s'.pushes = s.pushes
  retired : s'.retired = s.retired
  seen : s'.seen = s.seen
  batches : s'.batches = s.batches

theorem timerStep_idle {s s' : Thread F} (h : s.timerStep = some s') : s.Idle s' := by
  cases timerStep_cases h with
  | notify => exact ⟨.inr rfl, rfl, rfl, rfl, rfl, rfl⟩
  | _ => exact ⟨.inl rfl, rfl, rfl, rfl, rfl, rfl⟩

theorem destructorStep_idle {s s' : Thread F} (h : s.destructorStep = some s') : s.Idle s' := by
  cases destructorStep_cases h with
  | _ => exact ⟨.inl rfl, rfl, rfl, rfl, rfl, rfl⟩

theorem spurious_idle {s s' : Thread F} (h : s.spurious = some s') : s.Idle s' := by
  obtain rfl := spurious_eq_some h
  exact ⟨.inr rfl, rfl, rfl, rfl, rfl, rfl⟩

end Thread

end FHT.Task
