import FHT.Task.Shutdown

/-!
# The pause between two batches

After a batch the worker waits for as long as `isWait` says that the sleep value is above zero.
It is woken by a push, which has reset that value, or by the timer thread, which has seen
`m_wait`, clears the flag and notifies. The flag is cleared outside its lock, by reading it and
writing back the opposite.

## Main results

- `Thread.blocked_is_seen` — a worker that is blocked will be notified by the timer thread
- `Thread.no_lost_wakeup` — so it is in every run, and once woken with nothing to sleep for it goes
  on, while no write of the timer thread comes between setting the flag and reading it
-/

namespace FHT.Task

/-- Between the test of `m_wait` and the notification. -/
def Timer.willNotify : Timer → Bool
  | .toggleRead | .toggleWrite _ | .sleeping | .ready | .notify => true
  | _ => false

namespace Thread

variable {F : Type*}

/-- The blocked worker has left the flag set, or the timer thread has seen it. -/
def Seen (s : Thread F) : Prop := s.worker = .blocked → s.wait = true ∨ s.timer.willNotify

/-- A step of neither loop: the worker stays or is woken, and the sleep value is reset at most. -/
structure Aside (s s' : Thread F) : Prop where
  worker : s'.worker = s.worker ∨ s'.worker = s.notifyOne.worker
  wait : s'.wait = s.wait
  timer : s'.timer = s.timer
  sleep : s'.sleep = s.sleep ∨ s'.sleep = -1

theorem pushBegin_aside {s s' : Thread F} {i : Nat} {function : Functor F} {ms : Int}
    (h : s.pushBegin i function ms = some s') : s.Aside s' := by
  obtain ⟨-, rfl⟩ := pushBegin_eq_some h
  exact ⟨.inl rfl, rfl, rfl, .inr rfl⟩

theorem pushStep_aside {s s' : Thread F} {i : Nat} {now : Int}
    (h : s.pushStep i now = some s') : s.Aside s' := by
  cases pushStep_cases h with
  | stamp | enqueue => exact ⟨.inl rfl, rfl, rfl, .inl rfl⟩
  | notify => exact ⟨.inr rfl, rfl, rfl, .inl rfl⟩

theorem destructorStep_aside {s s' : Thread F} (h : s.destructorStep = some s') :
    s.Aside s' := by
  cases destructorStep_cases h with
  | _ => exact ⟨.inl rfl, rfl, rfl, .inl rfl⟩

theorem spurious_aside {s s' : Thread F} (h : s.spurious = some s') : s.Aside s' := by
  obtain rfl := spurious_eq_some h
  exact ⟨.inr rfl, rfl, rfl, .inl rfl⟩

theorem notifyOne_not_blocked (s : Thread F) : s.notifyOne.worker ≠ .blocked := by
  rw [notifyOne]
  cases s.worker <;> simp

theorem Aside.seen {s s' : Thread F} (h : s.Aside s') (hs : s.Seen) : s'.Seen := by
  intro hb
  rw [h.wait, h.timer]
  rcases h.worker with hw | hw
  · exact hs (hw.symm.trans hb)
  · exact absurd (hw.symm.trans hb) (notifyOne_not_blocked s)

/-- The worker blocks only on a flag that it reads as set. -/
private theorem workerStep_seen {s s' : Thread F} {now : Int} (h : s.workerStep now = some s') :
    s'.Seen := by
  intro hb
  cases workerStep_cases h with
  | retWait =>
    cases hwait : s.wait with
    | true => exact .inl rfl
    | false => simp [hwait] at hb
  | head | closing =>
    dsimp only at hb
    split at hb <;> cases hb
  | _ => cases hb

private theorem functorEnds_not_blocked {s s' : Thread F} {i : Nat} {o : Outcome}
    (h : s.functorEnds i o = some s') : s'.worker ≠ .blocked := by
  cases functorEnds_cases h with
  | again | retire => simp
  | throw =>
    dsimp only
    split <;> simp

/-- From its test of the flag on the timer thread is on its way to notify. -/
private theorem timerStep_seen {s s' : Thread F} (hs : s.Seen) (h : s.timerStep = some s') :
    s'.Seen := by
  intro hb
  -- before the test nothing was seen, so that the flag is set
  have hset : s.worker = .blocked → s.timer.willNotify = false → s.wait = true :=
    fun hb hwill => (hs hb).resolve_right (by simp [hwill])
  cases timerStep_cases h with
  | head ht | nap ht | reset ht => exact .inl (hset hb (by rw [ht]; rfl))
  | test ht =>
    have hwait := hset hb (by rw [ht]; rfl)
    exact .inr (by simp [hwait, Timer.willNotify])
  | toggleRead | toggleWrite | sleep | ready => exact .inr rfl
  | notify => exact absurd hb (notifyOne_not_blocked _)

theorem step_seen {s s' : Thread F} {a : Action F} (hs : s.Seen) (h : step s a = some s') :
    s'.Seen := by
  have h := act_of_step h
  cases a with
  | pushBegin i function ms => exact (pushBegin_aside h).seen hs
  | push i now => exact (pushStep_aside h).seen hs
  | worker now => exact workerStep_seen h
  | functorEnds i o => exact fun hb => absurd hb (functorEnds_not_blocked h)
  | timer => exact timerStep_seen hs h
  | destructor => exact (destructorStep_aside h).seen hs
  | spurious => exact (spurious_aside h).seen hs

/-- In every reachable state a worker that is blocked in the pause will be notified: the flag
is set and the timer thread loops, or it has tested the flag and has not notified yet. -/
theorem blocked_is_seen {acts : List (Action F)} {s : Thread F}
    (hrun : step.run init acts = some s) (hb : s.worker = .blocked) :
    (s.wait = true ∧ s.timerRun = true ∧ s.timer ≠ .exited) ∨ s.timer.willNotify := by
  have hinit : (init : Thread F).Seen := fun hb => by cases hb
  have hseen := Machine.run_invariant (I := Seen) (fun _ _ _ hu ht => step_seen hu ht) hinit hrun
  have hloops := run_timerRuns init_timerRuns hrun
  exact (hseen hb).imp_left fun hwait => ⟨hwait, hloops.flag, hloops.timer⟩

def Action.isWorker : Action F → Bool
  | .worker _ => true
  | _ => false

/-- The worker after so many steps of its own, where it was woken and leaves the pause. -/
def wayOut : Nat → Worker F
  | 0 => .relock
  | 1 => .isWait
  | 2 => .retWait
  | _ => .head

/-- The timer thread does not set the flag after the worker has cleared it and before it reads
it back. -/
def TogglesInTime (s : Thread F) (a : Action F) (_ : Thread F) : Prop :=
  match a, s.timer, s.worker with
  | .timer, .toggleWrite true, .retWait => s.wait = true
  | _, _, _ => True

/-- The step writes `true` between the two halves of `wait()`. -/
def togglesLate : Action F → Timer → Worker F → Bool
  | .timer, .toggleWrite true, .retWait => true
  | _, _, _ => false

theorem togglesInTime_iff (s : Thread F) (a : Action F) (s' : Thread F) :
    s.TogglesInTime a s' ↔ (togglesLate a s.timer s.worker = true → s.wait = true) := by
  unfold TogglesInTime togglesLate
  split
  · simp
  · simp

instance (s : Thread F) (a : Action F) (s' : Thread F) : Decidable (s.TogglesInTime a s') :=
  decidable_of_iff _ (s.togglesInTime_iff a s').symm

/-- The worker has been woken with nothing to sleep for, and has taken `n` steps since. -/
structure Leaves (n : Nat) (s : Thread F) : Prop where
  worker : s.worker = wayOut n
  sleep : s.sleep ≤ 0
  wait : n = 2 → s.wait = false
  loops : s.TimerRuns

theorem notifyOne_wayOut {s : Thread F} {n : Nat} (h : s.worker = wayOut n) :
    s.notifyOne.worker = wayOut n := by
  rw [notifyOne, h]
  match n with
  | 0 | 1 | 2 | _ + 3 => rfl

theorem Aside.leaves {s s' : Thread F} {n : Nat} (h : s.Aside s') (hs : s.Leaves n)
    (hloops : s'.TimerRuns) : s'.Leaves n := by
  refine ⟨?_, ?_, ?_, hloops⟩
  · rcases h.worker with hw | hw
    · rw [hw, hs.worker]
    · rw [hw, notifyOne_wayOut hs.worker]
  · have hsleep := hs.sleep
    rcases h.sleep with hsl | hsl
    · omega
    · omega
  · intro hn
    rw [h.wait, hs.wait hn]

/-- The worker's next step on its way. -/
private theorem workerStep_leaves {s s' : Thread F} {n : Nat} {now : Int} (hs : s.Leaves n)
    (hn : n < 3) (h : s.workerStep now = some s') (hloops : s'.TimerRuns) :
    s'.Leaves (n + 1) := by
  have hw := hs.worker
  rw [workerStep] at h
  obtain rfl | rfl | rfl : n = 0 ∨ n = 1 ∨ n = 2 := by omega
  · rw [show s.worker = .relock from hw] at h
    obtain rfl := Option.some.inj h
    exact ⟨rfl, hs.sleep, by simp, hloops⟩
  · rw [show s.worker = .isWait from hw] at h
    obtain rfl := Option.some.inj h
    have hsleep : ¬ s.sleep > 0 := by
      have := hs.sleep
      omega
    exact ⟨rfl, hs.sleep, fun _ => decide_eq_false hsleep, hloops⟩
  · rw [show s.worker = .retWait from hw] at h
    obtain rfl := Option.some.inj h
    have hwait := hs.wait rfl
    exact ⟨by simp [hwait, wayOut], hs.sleep, by simp, hloops⟩

/-- What the timer thread writes. -/
theorem timerStep_writes {s s' : Thread F} (h : s.timerStep = some s') :
    (s'.sleep = s.sleep ∨ s'.sleep = -1) ∧
      (s'.wait = s.wait ∨ s.timer = .toggleWrite s'.wait) := by
  cases timerStep_cases h with
  | toggleWrite ht => exact ⟨.inl rfl, .inr ht⟩
  | reset => exact ⟨.inr rfl, .inl rfl⟩
  | _ => exact ⟨.inl rfl, .inl rfl⟩

private theorem timerStep_leaves {s s' : Thread F} {n : Nat} (hs : s.Leaves n)
    (htoggle : s.timer = .toggleWrite true → s.worker = .retWait → s.wait = true)
    (h : s.timerStep = some s') (hloops : s'.TimerRuns) : s'.Leaves n := by
  obtain ⟨hsl, hwt⟩ := timerStep_writes h
  refine ⟨?_, ?_, ?_, hloops⟩
  · rcases (timerStep_idle h).worker with hw | hw
    · rw [hw, hs.worker]
    · rw [hw, notifyOne_wayOut hs.worker]
  · have hsleep := hs.sleep
    omega
  · rintro rfl
    have hclear := hs.wait rfl
    rcases hwt with hwt | hwt
    · rw [hwt, hclear]
    · cases hv : s'.wait with
      | false => rfl
      | true =>
        rw [hv] at hwt
        rw [htoggle hwt hs.worker] at hclear
        cases hclear

/-- On the way out of the pause the worker can always go on, and nobody else stops it. -/
theorem Leaves.step {s s' : Thread F} {n : Nat} {a : Action F} (hs : s.Leaves n) (hn : n ≤ 3)
    (ha : a.isWorker → n < 3) (htoggle : s.TogglesInTime a s') (h : Thread.step s a = some s') :
    s'.Leaves (n + a.isWorker.toNat) := by
  have hloops := step_timerRuns hs.loops h
  have h := act_of_step h
  cases a with
  | worker now => exact workerStep_leaves hs (ha rfl) h hloops
  | pushBegin i function ms => exact (pushBegin_aside h).leaves hs hloops
  | push i now => exact (pushStep_aside h).leaves hs hloops
  | timer =>
    refine timerStep_leaves hs ?_ h hloops
    intro htimer hworker
    simpa [TogglesInTime, htimer, hworker] using htoggle
  | destructor => exact (destructorStep_aside h).leaves hs hloops
  | spurious => exact (spurious_aside h).leaves hs hloops
  | functorEnds i o =>
    obtain ⟨b, t, hw, -⟩ := (functorEnds_cases h).running
    have hway := hs.worker
    rw [hw] at hway
    obtain rfl | rfl | rfl | rfl : n = 0 ∨ n = 1 ∨ n = 2 ∨ n = 3 := by omega
    all_goals cases hway

theorem Leaves.enabled {s : Thread F} {n : Nat} (hs : s.Leaves n) (hn : n < 3) (now : Int) :
    (Thread.step s (.worker now)).isSome := by
  have hdtor := hs.loops.destructor.2
  have hw := hs.worker
  have hdead : s.dead = false := by
    rw [dead, hw]
    cases hd : s.destructor with
    | destroyed => exact absurd hd hdtor
    | _ =>
      obtain rfl | rfl | rfl : n = 0 ∨ n = 1 ∨ n = 2 := by omega
      all_goals rfl
  obtain rfl | rfl | rfl : n = 0 ∨ n = 1 ∨ n = 2 := by omega
  all_goals simp [Thread.step, hdead, act, workerStep, hw, wayOut]

/-- In every run a worker that is blocked in the pause is still to be notified by the timer
thread. Woken with no sleep value above zero it leaves the pause by its next three steps,
whatever the other threads do in between, if the timer thread writes no `true` between the two
halves of its `wait()`. -/
theorem no_lost_wakeup {before acts : List (Action F)} {s t : Thread F}
    (hrun : step.run init before = some s) (hacts : step.run s acts = some t)
    (htoggles : step.Along TogglesInTime s acts) :
    (s.worker = .blocked →
      (s.wait = true ∧ s.timerRun = true ∧ s.timer ≠ .exited) ∨ s.timer.willNotify) ∧
    (s.worker = .relock → s.sleep ≤ 0 → acts.countP Action.isWorker ≤ 3 →
      t.worker = wayOut (acts.countP Action.isWorker) ∧
      (acts.countP Action.isWorker < 3 → ∀ now, (step t (.worker now)).isSome)) := by
  refine ⟨blocked_is_seen hrun, ?_⟩
  intro hw hsleep hcount
  have hstart : s.Leaves 0 := ⟨hw, hsleep, by simp, run_timerRuns init_timerRuns hrun⟩
  have hleaves : acts.countP Action.isWorker ≤ 3 → t.Leaves (acts.countP Action.isWorker) := by
    refine Machine.Along.history
      (I := fun as t => as.countP Action.isWorker ≤ 3 → t.Leaves (as.countP Action.isWorker))
      ?_ (fun _ => hstart) htoggles hacts
    intro as u a v hu hs htoggle hle
    rw [List.countP_append, List.countP_singleton] at hle ⊢
    have hone : (if a.isWorker = true then 1 else 0) = a.isWorker.toNat := by
      cases a.isWorker <;> rfl
    rw [hone] at hle ⊢
    refine (hu (by omega)).step (by omega) ?_ htoggle hs
    intro ha
    rw [ha, Bool.toNat_true] at hle
    omega
  have ht := hleaves hcount
  exact ⟨ht.worker, fun hlt now => ht.enabled hlt now⟩

/-- The worker runs one task and blocks in the pause, and the timer thread tests the flag. -/
def pause : List (Action Unit) :=
  [.pushBegin 0 (.postTask ()) 0, .push 0 0, .push 0 0, .push 0 0,
    .worker 0, .worker 0, .worker 0, .worker 0, .functorEnds 0 (.returns .FINISH),
    .worker 0, .worker 0, .worker 0, .worker 0, .timer, .timer, .timer]

/-- A push that wakes the worker. -/
def wake : List (Action Unit) := [.pushBegin 1 (.postTask ()) 0, .push 1 0, .push 1 0, .push 1 0]

/-- The timer thread clears the flag before the worker does, and the worker goes on. -/
theorem no_lost_wakeup_pause :
    ∃ s t, step.run init (pause ++ wake) = some s ∧
      step.run s [.worker 0, .timer, .timer, .worker 0, .worker 0] = some t ∧
      t.worker = .head := by
  obtain ⟨s, t, hrun, hacts, htoggles, hw, hsleep⟩ :
      ∃ s t, step.run init (pause ++ wake) = some s ∧
        step.run s [.worker 0, .timer, .timer, .worker 0, .worker 0] = some t ∧
        step.Along TogglesInTime s [.worker 0, .timer, .timer, .worker 0, .worker 0] ∧
        s.worker = .relock ∧ s.sleep ≤ 0 :=
    ⟨_, _, rfl, rfl, by decide, rfl, by decide⟩
  exact ⟨s, t, hrun, hacts,
    ((no_lost_wakeup hrun hacts htoggles).2 hw hsleep (by decide)).1⟩

/-- The timer thread reads the flag that the worker has just cleared and sets it: the worker
blocks although the push has reset the sleep value. -/
theorem woken_worker_blocks : ¬ ∀ (before acts : List (Action Unit)) (s t : Thread Unit),
    step.run init before = some s → step.run s acts = some t →
    (s.worker = .blocked →
      (s.wait = true ∧ s.timerRun = true ∧ s.timer ≠ .exited) ∨ s.timer.willNotify) ∧
    (s.worker = .relock → s.sleep ≤ 0 → acts.countP Action.isWorker ≤ 3 →
      t.worker = wayOut (acts.countP Action.isWorker) ∧
      (acts.countP Action.isWorker < 3 → ∀ now, (step t (.worker now)).isSome)) := by
  intro h
  obtain ⟨hworker, -⟩ := (h (pause ++ wake)
    [.worker 0, .worker 0, .timer, .timer, .worker 0] _ _ rfl rfl).2 rfl (by decide) (by decide)
  cases hworker

end Thread

end FHT.Task
