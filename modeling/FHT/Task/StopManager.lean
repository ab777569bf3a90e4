import FHT.Task.Manager
import FHT.Task.Shutdown

/-!
# The end of the task manager

`stopManager` erases the entries of `factory_` one after another. The last reference to a thread
is dropped with its entry, unless a call of `postLoopTask` holds one, and its destructor waits for
the worker and for the timer thread.

## Main results

- `Manager.stop_hangs` — `stopManager` does not get past an idle thread
-/

namespace FHT.Task

namespace Thread

variable {F : Type*}

/-- Only the destructor tells a thread to stop. -/
theorem same_of_step {s s' : Thread F} {a : Action F} (h : step s a = some s')
    (ha : a ≠ .destructor) : s'.destructor = s.destructor ∧ s'.isRun = s.isRun := by
  have hact := act_of_step h
  cases a with
  | pushBegin i function ms =>
    obtain ⟨-, rfl⟩ := pushBegin_eq_some hact
    exact ⟨rfl, rfl⟩
  | push i now =>
    cases pushStep_cases hact with
    | _ => exact ⟨rfl, rfl⟩
  | worker now =>
    cases workerStep_cases hact with
    | _ => exact ⟨rfl, rfl⟩
  | functorEnds i o =>
    cases functorEnds_cases hact with
    | _ => exact ⟨rfl, rfl⟩
  | timer =>
    cases timerStep_cases hact with
    | _ => exact ⟨rfl, rfl⟩
  | destructor => exact absurd rfl ha
  | spurious =>
    obtain rfl := spurious_eq_some hact
    exact ⟨rfl, rfl⟩

end Thread

namespace Manager

variable {F : Type*}

/-- The threads that `factory_` still refers to have not been told to stop. -/
def Kept (s : Manager F) : Prop :=
  ∀ k ∈ s.factory, (s.threads k).destructor = .alive ∧ (s.threads k).isRun = true

theorem step_kept {s s' : Manager F} {a : Action F} (hs : s.Kept) (h : step s a = some s') :
    s'.Kept := by
  have hupdate : ∀ {k t} {a : Thread.Action F}, Thread.step (s.threads k) a = some t →
      (k ∈ s.factory → a ≠ .destructor) → ∀ j ∈ s.factory,
        (Function.update s.threads k t j).destructor = .alive ∧
          (Function.update s.threads k t j).isRun = true := by
    intro k t a ht ha j hj
    by_cases hjk : j = k
    · subst hjk
      rw [Function.update_self]
      obtain ⟨hd, hr⟩ := Thread.same_of_step ht (ha hj)
      exact ⟨hd.trans (hs j hj).1, hr.trans (hs j hj).2⟩
    · rw [Function.update_of_ne hjk]
      exact hs j hj
  cases (step_cases h).2 with
  | post _ _ _ ht => exact hupdate ht fun _ => by simp
  | crash | ignore => exact hs
  | @thread k a t ha ht =>
    refine hupdate ht ?_
    rintro hk rfl
    -- the entry refers to the thread, so its destructor cannot begin
    simp [allows, (hs k hk).1, hk] at ha
  | keep => exact fun j hj => hs j (Finset.mem_of_mem_erase hj)
  | @destroy k t hk _ _ ht =>
    intro j hj
    obtain ⟨hjk, hj⟩ := Finset.mem_erase.mp hj
    dsimp only
    rw [Function.update_of_ne hjk]
    exact hs j hj

/-- `factory_.clear()` is in the destructor of `k`, and does not return from it. -/
structure Hangs (k : Key) (s : Manager F) : Prop where
  clearing : s.clearing = some k
  timer : (s.threads k).TimerRuns
  kept : s.Kept

theorem Hangs.step {k : Key} {s s' : Manager F} {a : Action F} (hs : s.Hangs k)
    (h : Manager.step s a = some s') : s'.Hangs k ∧ s'.factory = s.factory ∧ ∀ j, a ≠ .erase j := by
  have htimer : (s'.threads k).TimerRuns := Thread.run_timerRuns hs.timer (step_share k h)
  have hkept := step_kept hs.kept h
  have hcleared : s.cleared = false := by
    rw [cleared, hs.clearing]
    exact decide_eq_false hs.timer.destructor.2
  cases (step_cases h).2 with
  | post | crash | ignore | thread => exact ⟨⟨hs.clearing, htimer, hkept⟩, rfl, by simp⟩
  -- an entry is erased only when the destructor before has returned
  | keep _ hc | destroy _ hc =>
    rw [hcleared] at hc
    cases hc

/-- Once `factory_.clear()` has come to a thread that is not being pushed to, it stays in the
destructor of this thread: `stopManager` does not return, and the threads whose entries are left
are never told to stop. -/
theorem stop_hangs {acts acts' : List (Action F)} {s s' t : Manager F} {k : Key}
    (hrun : step.run init acts = some s) (hstop : step s (.erase k) = some s')
    (hidle : s.pushing k = false) (hrest : step.run s' acts' = some t) :
    t.clearing = some k ∧ (∀ j, .erase j ∉ acts') ∧
      ∀ j ∈ s.factory, j ≠ k → (t.threads j).isRun = true := by
  have htimer : (s'.threads k).TimerRuns := by
    refine Thread.run_timerRuns ?_ (step_share k hstop)
    exact Thread.run_timerRuns Thread.init_timerRuns (run_share k hrun)
  have hkept : s.Kept :=
    Machine.run_invariant (I := Kept) (fun _ _ _ hu hv => step_kept hu hv)
      (fun k _ => ⟨rfl, rfl⟩) hrun
  have hstart : s'.Hangs k ∧ s'.factory = s.factory.erase k := by
    have hkept' := step_kept hkept hstop
    cases (step_cases hstop).2 with
    | keep _ _ hp =>
      rw [hidle] at hp
      cases hp
    | destroy => exact ⟨⟨rfl, htimer, hkept'⟩, rfl⟩
  obtain ⟨hhangs, hfactory⟩ := hstart
  have hend := Machine.run_history (P := fun _ => True) (I := fun acts u =>
    u.Hangs k ∧ u.factory = s'.factory ∧ ∀ j, .erase j ∉ acts)
    (fun acts u a v hu _ hv => by
      obtain ⟨hu, hf, hno⟩ := hu
      obtain ⟨hv, hf', ha⟩ := hu.step hv
      refine ⟨hv, hf'.trans hf, fun j hmem => ?_⟩
      rcases List.mem_append.mp hmem with hmem | hmem
      · exact hno j hmem
      · exact ha j (List.mem_singleton.mp hmem).symm)
    ⟨hhangs, rfl, by simp⟩ (fun _ _ => trivial) hrest
  obtain ⟨hhangs, hf, hno⟩ := hend
  refine ⟨hhangs.clearing, hno, fun j hj hjk => (hhangs.kept j ?_).2⟩
  rw [hf, hfactory]
  exact Finset.mem_erase.mpr ⟨hjk, hj⟩

/-- The thread `MAIN`. -/
def mainKey : Key := ⟨1, by decide⟩

/-- `IO` has run its task and pauses, and `MAIN` has a task in its queue. -/
def twoPosted : List (Action Unit) :=
  posted 0 .io ioKey ++ posted 1 .main mainKey ++ ran 0 ioKey ++
    List.replicate 4 (.thread ioKey (.worker 0))

/-- `MAIN` runs its task, and is posted another one. The timer thread of `IO` wakes the worker,
which leaves its loop and is joined; the timer thread goes on. -/
def whileClearing : List (Action Unit) :=
  ran 1 mainKey ++ posted 2 .main mainKey ++ List.replicate 9 (.thread ioKey .timer) ++
    List.replicate 4 (.thread ioKey (.worker 0)) ++ [.thread ioKey .destructor] ++
    List.replicate 3 (.thread ioKey .timer)

/-- `IO` is the first entry that is erased. -/
theorem stop_hangs_first : ∃ s s' t, step.run init twoPosted = some s ∧
    step s (.erase ioKey) = some s' ∧ step.run s' whileClearing = some t ∧
    (t.threads ioKey).destructor = .joinTimer ∧ (t.threads mainKey).retired = [1] ∧
    t.clearing = some ioKey ∧ (∀ j, .erase j ∉ whileClearing) ∧
    ∀ j, j ≠ ioKey → (t.threads j).isRun = true := by
  refine ⟨_, _, _, rfl, rfl, rfl, rfl, rfl, ?_⟩
  have hstop := stop_hangs (rfl : step.run init twoPosted = some _)
    (rfl : step _ (.erase ioKey) = some _) rfl (rfl : step.run _ whileClearing = some _)
  exact ⟨hstop.1, hstop.2.1, fun j hj => hstop.2.2 j (Finset.mem_univ j) hj⟩

end Manager

end FHT.Task
