import FHT.Task.Steps

/-!
# Shutting a thread down

`~Thread` clears the flag of the worker's loop, joins the worker and then the timer thread. The
flag of the timer loop is cleared by `~internalThread`, which runs after the body of `~Thread`:
the second join waits for a loop that nothing has told to end.
-/

namespace FHT.Task.Thread

variable {F : Type*}

/-- The timer loop is kept going: its flag is set until both joins are over, and they are not. -/
structure TimerRuns (s : Thread F) : Prop where
  flag : s.timerRun = true
  timer : s.timer ≠ .exited
  destructor : s.destructor ≠ .joined ∧ s.destructor ≠ .destroyed

theorem notifyOne_timerRuns {s : Thread F} (h : s.TimerRuns) : s.notifyOne.TimerRuns :=
  ⟨h.flag, h.timer, h.destructor⟩

private theorem timerStep_timerRuns {s s' : Thread F} (hs : s.TimerRuns)
    (h : s.timerStep = some s') : s'.TimerRuns := by
  cases timerStep_cases h with
  | head => exact ⟨hs.flag, by simp [hs.flag], hs.destructor⟩
  | test =>
    refine ⟨hs.flag, ?_, hs.destructor⟩
    dsimp only
    split <;> simp
  | nap | toggleRead | toggleWrite | sleep | ready | reset =>
    exact ⟨hs.flag, by simp, hs.destructor⟩
  | notify => exact notifyOne_timerRuns ⟨hs.flag, by simp, hs.destructor⟩

private theorem destructorStep_timerRuns {s s' : Thread F} (hs : s.TimerRuns)
    (h : s.destructorStep = some s') : s'.TimerRuns := by
  cases destructorStep_cases h with
  | stop | joinWorker => exact ⟨hs.flag, hs.timer, by simp⟩
  | joinTimer _ ht => exact absurd ht hs.timer
  | destroy hd => exact absurd hd hs.destructor.1

/-- Neither the timer loop nor the destructor has moved. -/
def SameTimer (s s' : Thread F) : Prop :=
  s'.timerRun = s.timerRun ∧ s'.timer = s.timer ∧ s'.destructor = s.destructor

private theorem workerStep_sameTimer {s s' : Thread F} {now : Int}
    (h : s.workerStep now = some s') : s.SameTimer s' := by
  cases workerStep_cases h with
  | _ => exact ⟨rfl, rfl, rfl⟩

private theorem functorEnds_sameTimer {s s' : Thread F} {i : Nat} {o : Outcome}
    (h : s.functorEnds i o = some s') : s.SameTimer s' := by
  cases functorEnds_cases h with
  | _ => exact ⟨rfl, rfl, rfl⟩

private theorem pushStep_sameTimer {s s' : Thread F} {i : Nat} {now : Int}
    (h : s.pushStep i now = some s') : s.SameTimer s' := by
  cases pushStep_cases h with
  | _ => exact ⟨rfl, rfl, rfl⟩

theorem SameTimer.timerRuns {s s' : Thread F} (h : s.SameTimer s') (hs : s.TimerRuns) :
    s'.TimerRuns := by
  obtain ⟨hrun, htimer, hdtor⟩ := h
  exact ⟨hrun ▸ hs.flag, htimer ▸ hs.timer, hdtor ▸ hs.destructor⟩

theorem step_timerRuns {s s' : Thread F} {a : Action F} (hs : s.TimerRuns)
    (h : step s a = some s') : s'.TimerRuns := by
  have h := act_of_step h
  cases a with
  | pushBegin i function ms =>
    obtain ⟨-, rfl⟩ := pushBegin_eq_some h
    exact ⟨hs.flag, hs.timer, hs.destructor⟩
  | push i now => exact (pushStep_sameTimer h).timerRuns hs
  | worker now => exact (workerStep_sameTimer h).timerRuns hs
  | functorEnds i o => exact (functorEnds_sameTimer h).timerRuns hs
  | timer => exact timerStep_timerRuns hs h
  | destructor => exact destructorStep_timerRuns hs h
  | spurious =>
    obtain rfl := spurious_eq_some h
    exact notifyOne_timerRuns hs

theorem run_timerRuns {acts : List (Action F)} {s s' : Thread F} (hs : s.TimerRuns)
    (h : step.run s acts = some s') : s'.TimerRuns :=
  Machine.run_invariant (I := TimerRuns) (fun _ _ _ hu ht => step_timerRuns hu ht) hs h

theorem init_timerRuns : (init : Thread F).TimerRuns := ⟨rfl, by simp [init], by simp [init]⟩

/-- Whether the action is a push from outside. -/
def Action.isPush : Action F → Bool
  | .pushBegin _ _ _ | .push _ _ => true
  | _ => false

/-- From `s`, steps of the threads without a push lead to the end of both joins. -/
def CanShutDown (s : Thread F) : Prop :=
  ∃ acts s', (∀ a ∈ acts, a.isPush = false) ∧ step.run s acts = some s' ∧ s'.destructor = .joined

/-- Once `~Thread` has started, in whatever reachable state, its joins never both return. -/
theorem not_canShutDown {acts : List (Action F)} {s s' : Thread F}
    (hrun : step.run init acts = some s) (hstart : step s .destructor = some s') :
    ¬ CanShutDown s' := by
  rintro ⟨acts', u, _, hu, hjoined⟩
  have hs' := step_timerRuns (run_timerRuns init_timerRuns hrun) hstart
  exact (run_timerRuns hs' hu).destructor.1 hjoined

theorem not_canShutDown_init : ∃ s : Thread Unit,
    step init .destructor = some s ∧ ¬ CanShutDown s :=
  ⟨_, rfl, not_canShutDown (rfl : step.run init [] = some init) rfl⟩

/-- Already the thread that has just been constructed cannot be shut down. -/
theorem shutdown_hangs : ¬ ∀ (acts : List (Action Unit)) (s s' : Thread Unit),
    step.run init acts = some s → step s .destructor = some s' → CanShutDown s' := by
  intro h
  have hstart : step init .destructor =
      some { (init : Thread Unit) with isRun := false, destructor := .joinWorker } := rfl
  obtain ⟨acts, u, _, hu, hjoined⟩ := h [] init _ rfl hstart
  have hs := step_timerRuns init_timerRuns hstart
  exact (run_timerRuns hs hu).destructor.1 hjoined

end FHT.Task.Thread
