import FHT.Lib.Rotation
import FHT.Task.Batch
import FHT.Task.Conservation

/-!
# The queue is served in turn

The queue of a thread is a rotation: a task that is not due, or goes on looping, comes back at
its end. How the batches cut it, and which task throws, makes no difference to the turns.

## Main definitions

- `Thread.takes` — the task that `getTask` returns in a step
- `Thread.enters` — the task that a push queues in a step
- `Thread.turn` — a step as events of the rotation

## Main results

- `Thread.step_turn` — the steps of a thread are steps of the rotation
- `Thread.round_robin` — what the worker takes between two turns of a task
-/

namespace FHT.Task.Thread

variable {F : Type*}

/-- The task that `getTask` returns in this step. -/
def takes (s : Thread F) : Action F → List Nat
  | .worker _ =>
    match s.worker with
    | .next b => if b.remaining = 0 then [] else (s.queue.head?.map Tuple.id).toList
    | _ => []
  | _ => []

/-- The task that a push queues in this step. -/
def enters (s : Thread F) : Action F → List Nat
  | .push i _ =>
    match s.pushes i with
    | some ⟨_, _, .stamped _⟩ => [i]
    | _ => []
  | _ => []

/-- The queue and the task in the worker's hand, by their ids. -/
def rotation (s : Thread F) : Rotation Nat := ⟨s.queue.map Tuple.id, s.worker.hand.map Tuple.id⟩

/-- What a step is for the rotation. -/
def turn (s : Thread F) (a : Action F) : List (Rotation.Event Nat) :=
  match a with
  | .push i _ => (s.enters (.push i 0)).map .join
  | .worker now =>
    match s.worker with
    | .next _ => (s.takes (.worker now)).map fun _ => .take
    | .examine b t =>
      if difftime b.realtime t.ts < t.ms then []
      else
        match t.function with
        | .empty => [.leave]
        | .postTask _ | .postLoopTask _ => []
    | .put _ _ => [.again]
    | _ => []
  | .functorEnds _ o =>
    match s.worker with
    | .running _ t => if o.isLast ∨ t.isLoop = false then [.leave] else []
    | _ => []
  | .pushBegin _ _ _ | .timer | .destructor | .spurious => []

theorem rotation_of_worker {s : Thread F} {w : Worker F} (hw : s.worker = w) :
    s.rotation = ⟨s.queue.map Tuple.id, w.hand.map Tuple.id⟩ := by
  rw [rotation, hw]

theorem rotation_notifyOne (s : Thread F) : s.notifyOne.rotation = s.rotation := by
  rw [rotation, rotation, notifyOne_hand]
  rfl

theorem Idle.rotation {s s' : Thread F} (h : s.Idle s') : s'.rotation = s.rotation := by
  rw [Thread.rotation, Thread.rotation, h.queue]
  rcases h.worker with hw | hw
  · rw [hw]
  · rw [hw, notifyOne_hand]

private theorem pushStep_turn {s s' : Thread F} {i : Nat} {now : Int}
    (h : s.pushStep i now = some s') :
    Rotation.step.run s.rotation (s.turn (.push i now)) = some s'.rotation := by
  cases pushStep_cases h with
  | @stamp p hi hst =>
    obtain ⟨function, ms, stage⟩ := p
    obtain rfl : stage = .begun := hst
    simp only [turn, enters, hi]
    rfl
  | @enqueue p ts hi hst =>
    obtain ⟨function, ms, stage⟩ := p
    obtain rfl : stage = .stamped ts := hst
    simp only [turn, enters, hi, rotation, List.map_append]
    rfl
  | @notify p hi hst =>
    obtain ⟨function, ms, stage⟩ := p
    obtain rfl : stage = .queued := hst
    simp only [turn, enters, hi, rotation_notifyOne]
    rfl

private theorem workerStep_turn {s s' : Thread F} {now : Int} (h : s.workerStep now = some s') :
    Rotation.step.run s.rotation (s.turn (.worker now)) = some s'.rotation := by
  cases workerStep_cases h with
  | head hw | closing hw | retWait hw =>
    simp only [turn, hw, rotation]
    split <;> rfl
  | sleep hw | count hw | isWait hw | relock hw | stamp hw =>
    simp only [turn, hw, rotation]
    rfl
  | finish hw hr =>
    simp only [turn, takes, hw, hr, if_true, rotation]
    rfl
  | fault hw hr hq =>
    simp only [turn, takes, hw, hr, hq, if_false, rotation]
    rfl
  | pop hw hr hq =>
    simp only [turn, takes, hw, hr, hq, if_false, rotation]
    rfl
  | early hw hd =>
    simp only [turn, hw, hd, if_true, rotation]
    rfl
  | drop hw hd hf =>
    simp only [turn, hw, hd, hf, if_false, rotation]
    rfl
  | @run b t hw hd hf =>
    simp only [turn, hw, hd, if_false, rotation]
    cases hfun : t.function with
    | empty => exact absurd hfun hf
    | postTask | postLoopTask => rfl
  | put hw =>
    simp only [turn, hw, rotation, List.map_append]
    rfl

private theorem functorEnds_turn {s s' : Thread F} {i : Nat} {o : Outcome}
    (h : s.functorEnds i o = some s') :
    Rotation.step.run s.rotation (s.turn (.functorEnds i o)) = some s'.rotation := by
  cases functorEnds_cases h with
  | again hw _ hl =>
    simp only [turn, hw, rotation, hl, Outcome.isLast]
    rfl
  | @retire b t st hw _ hl =>
    have hlast : (Outcome.returns st).isLast = true ∨ t.isLoop = false := by
      rcases hl with rfl | hl
      · exact .inl rfl
      · exact .inr hl
    simp only [turn, hw, if_pos hlast, rotation]
    rfl
  | throw hw =>
    simp only [turn, hw, Outcome.isLast, true_or, if_true, rotation]
    split <;> rfl

/-- The steps of a thread are steps of the rotation. -/
theorem step_turn {s s' : Thread F} {a : Action F} (h : step s a = some s') :
    Rotation.step.run s.rotation (s.turn a) = some s'.rotation := by
  have h := act_of_step h
  cases a with
  | pushBegin i function ms =>
    obtain ⟨-, rfl⟩ := pushBegin_eq_some h
    rfl
  | push i now => exact pushStep_turn h
  | worker now => exact workerStep_turn h
  | functorEnds i o => exact functorEnds_turn h
  | timer => exact congrArg some (timerStep_idle h).rotation.symm
  | destructor => exact congrArg some (destructorStep_idle h).rotation.symm
  | spurious => exact congrArg some (spurious_idle h).rotation.symm

/-- What the rotation takes is what the worker takes. -/
theorem taken_turn (s : Thread F) (a : Action F) :
    Rotation.step.observe Rotation.taken s.rotation (s.turn a) = s.takes a := by
  cases a with
  | push i now =>
    simp only [turn, takes, enters]
    split
    · exact Machine.observe_singleton _ _ _
    · rfl
  | worker now =>
    cases hw : s.worker with
    | next b =>
      simp only [turn, takes, hw, rotation_of_worker hw]
      split
      · rfl
      · cases s.queue <;> rfl
    | examine b t =>
      simp only [turn, takes, hw]
      split
      · rfl
      · cases t.function with
        | empty => exact Machine.observe_singleton _ _ _
        | postTask | postLoopTask => rfl
    | put b t =>
      simp only [turn, takes, hw]
      exact Machine.observe_singleton _ _ _
    | _ =>
      simp only [turn, takes, hw]
      rfl
  | functorEnds i o =>
    simp only [turn, takes]
    split
    · split
      · exact Machine.observe_singleton _ _ _
      · rfl
    · rfl
  | pushBegin | timer | destructor | spurious => rfl

/-- What a step can be for the rotation. -/
theorem turn_cases (s : Thread F) (a : Action F) :
    s.turn a = [] ∧ s.enters a = [] ∨
    (∃ i, s.turn a = [.join i] ∧ s.enters a = [i]) ∨
    s.turn a = [.take] ∧ s.enters a = [] ∨
    (∃ now b t, s.turn a = [.again] ∧ a = .worker now ∧ s.worker = .put b t) ∨
    s.turn a = [.leave] ∧ s.enters a = [] := by
  cases a with
  | push i now =>
    have hturn : s.turn (.push i now) = (s.enters (.push i now)).map .join := rfl
    rw [hturn]
    simp only [enters]
    split
    · exact .inr (.inl ⟨i, rfl, rfl⟩)
    · exact .inl ⟨rfl, rfl⟩
  | worker now =>
    cases hw : s.worker with
    | next b =>
      simp only [turn, takes, hw]
      split
      · exact .inl ⟨rfl, rfl⟩
      · cases s.queue.head? with
        | none => exact .inl ⟨rfl, rfl⟩
        | some t => exact .inr (.inr (.inl ⟨rfl, rfl⟩))
    | examine b t =>
      simp only [turn, hw]
      split
      · exact .inl ⟨rfl, rfl⟩
      · cases t.function with
        | empty => exact .inr (.inr (.inr (.inr ⟨rfl, rfl⟩)))
        | postTask | postLoopTask => exact .inl ⟨rfl, rfl⟩
    | put b t =>
      refine .inr (.inr (.inr (.inl ⟨now, b, t, ?_, rfl, rfl⟩)))
      simp only [turn, hw]
    | _ =>
      simp only [turn, hw]
      exact .inl ⟨trivial, rfl⟩
  | functorEnds i o =>
    simp only [turn]
    split
    · split
      · exact .inr (.inr (.inr (.inr ⟨rfl, rfl⟩)))
      · exact .inl ⟨rfl, rfl⟩
    · exact .inl ⟨rfl, rfl⟩
  | pushBegin | timer | destructor | spurious => exact .inl ⟨rfl, rfl⟩

theorem joins_turn (s : Thread F) (a : Action F) :
    (s.turn a).filterMap Rotation.Event.joins = s.enters a := by
  rcases s.turn_cases a with
    ⟨h, he⟩ | ⟨i, h, he⟩ | ⟨h, he⟩ | ⟨now, b, t, h, rfl, hw⟩ | ⟨h, he⟩
  · rw [h, he, List.filterMap_nil]
  · rw [h, he]
    rfl
  · rw [h, he]
    rfl
  · rw [h]
    rfl
  · rw [h, he]
    rfl

theorem length_turn_le (s : Thread F) (a : Action F) : (s.turn a).length ≤ 1 := by
  rcases s.turn_cases a with ⟨h, -⟩ | ⟨i, h, -⟩ | ⟨h, -⟩ | ⟨now, b, t, h, -⟩ | ⟨h, -⟩
  all_goals simp [h]

/-- Only the worker that has a task to put back does so. -/
theorem eq_put_of_turn {s : Thread F} {a : Action F} (h : s.turn a = [.again]) :
    ∃ now b t, a = .worker now ∧ s.worker = .put b t := by
  rcases s.turn_cases a with
    ⟨h', -⟩ | ⟨i, h', -⟩ | ⟨h', -⟩ | ⟨now, b, t, -, ha, hw⟩ | ⟨h', -⟩
  · cases h.symm.trans h'
  · cases h.symm.trans h'
  · cases h.symm.trans h'
  · exact ⟨now, b, t, ha, hw⟩
  · cases h.symm.trans h'

theorem entered_of_step {s s' : Thread F} {a : Action F} {i : Nat} (h : step s a = some s')
    (hi : s.entered i) : s'.entered i := by
  have hkeep : s'.pushes = s.pushes → s'.entered i := by
    intro hp
    unfold entered
    rwa [hp]
  have hupdate : ∀ j p, s'.pushes = Function.update s.pushes j (some p) →
      (i = j → p.entered) → s'.entered i := by
    intro j p hp hentered
    unfold entered
    rw [hp]
    by_cases hij : i = j
    · subst hij
      simpa using hentered rfl
    · rw [Function.update_of_ne hij]
      exact hi
  -- only the action of a push touches a push, and it goes on from a later stage
  cases step_moves h with
  | keep _ _ _ _ hp | take _ _ _ _ hp | stamp _ _ _ _ hp | requeue _ _ _ _ hp
  | drop _ _ _ _ _ hp | again _ _ _ _ _ hp | retire _ _ _ _ _ _ hp => exact hkeep hp
  | begin hj _ _ _ hp =>
    refine hupdate _ _ hp fun hij => ?_
    subst hij
    simp [entered, hj] at hi
  | restage hj hst _ _ _ hp =>
    refine hupdate _ _ hp fun hij => ?_
    subst hij
    rw [hst]
    simpa [entered, hj] using hi
  | enter _ _ _ _ _ hp => exact hupdate _ _ hp fun _ => rfl

/-- A task that has been queued is not queued again. -/
theorem not_mem_enters {s t : Thread F} {as : List (Action F)} {i : Nat} (hi : s.entered i)
    (hrun : step.run s as = some t) : i ∉ step.observe enters s as := by
  refine (Machine.run_observed (I := fun l v => i ∉ l ∧ v.entered i) ?_
    ⟨List.not_mem_nil, hi⟩ hrun).1
  rintro l v a v' ⟨hl, hv⟩ hstep
  refine ⟨?_, entered_of_step hstep hv⟩
  intro hmem
  rcases List.mem_append.mp hmem with hmem | hmem
  · exact hl hmem
  · cases a with
    | push j now =>
      simp only [enters] at hmem
      split at hmem
      · next hj =>
        obtain rfl := List.mem_singleton.mp hmem
        simp [entered, hj, Push.entered] at hv
      · cases hmem
    | pushBegin | worker | functorEnds | timer | destructor | spurious => cases hmem

theorem entered_of_mem_places {acts : List (Action F)} {s : Thread F}
    (hrun : step.run init acts = some s) {i : Nat} (hi : i ∈ s.places) : s.entered i := by
  have hcount := count_places hrun i
  have hpos := List.count_pos_iff.mpr hi
  cases he : s.entered i with
  | true => rfl
  | false =>
    rw [he, Bool.toNat_false] at hcount
    omega

theorem rotation_of_takes {s : Thread F} {a : Action F} {i : Nat} (h : s.takes a = [i]) :
    ∃ behind, s.rotation = ⟨i :: behind, none⟩ := by
  cases a with
  | worker now =>
    simp only [takes] at h
    split at h
    · next b hw =>
      rw [rotation_of_worker hw]
      split at h
      · cases h
      · cases hq : s.queue with
        | nil => simp [hq] at h
        | cons t q =>
          obtain rfl : t.id = i := by simpa [hq] using h
          exact ⟨q.map Tuple.id, rfl⟩
    · cases h
  | pushBegin | push | functorEnds | timer | destructor | spurious => cases h

/-- Between two turns of a task the worker takes the tasks that were queued when it took this
one, and then those that were queued while it had it in its hand, each of them once and in this
order. It has put the task back in between. -/
theorem round_robin {before between : List (Action F)} {s u : Thread F} {b : Batch} {t : Tuple F}
    {now : Int} (hrun : step.run init before = some s) (hs : s.worker = .examine b t)
    (hbetween : step.run s between = some u) (hu : u.takes (.worker now) = [t.id])
    (hno : t.id ∉ step.observe takes s between) :
    ∃ held put rest m b' t', between = held ++ .worker put :: rest ∧ step.run s held = some m ∧
      m.worker = .put b' t' ∧ t'.id = t.id ∧
      step.observe takes s between = s.queue.map Tuple.id ++ step.observe enters s held ∧
      (step.observe takes s between).Nodup := by
  have hstart : s.rotation = ⟨s.queue.map Tuple.id, some t.id⟩ := rotation_of_worker hs
  have hrot := Machine.run_refines (f := rotation) (fun _ _ _ h => step_turn h) hbetween
  have htaken : Rotation.step.observe Rotation.taken s.rotation (step.observe turn s between) =
      step.observe takes s between := by
    rw [Machine.observe_refines (f := rotation) (fun _ _ _ h => step_turn h) hbetween]
    congr 1
    funext v a
    exact v.taken_turn a
  have hentered : s.entered t.id := by
    refine entered_of_mem_places hrun (List.mem_append_left _ (List.mem_map_of_mem ?_))
    exact List.mem_append_right _ (by simp [hs, Worker.hand])
  -- the task has been queued before, so it comes back only by being put back
  have hnew := not_mem_enters hentered hbetween
  have hjoin : .join t.id ∉ step.observe turn s between := by
    rw [← Rotation.mem_joins, Machine.observe_filterMap]
    simpa only [joins_turn] using hnew
  have hqueue : t.id ∉ s.queue.map Tuple.id := by
    have hnodup := places_nodup hrun
    simp only [places, tuples, hs, Worker.hand, Option.toList_some, List.map_append,
      List.map_singleton, List.append_assoc] at hnodup
    exact fun hmem => (List.nodup_append.mp hnodup).2.2 _ hmem _ (by simp) rfl
  obtain ⟨behind, hlast⟩ := rotation_of_takes hu
  rw [hstart, hlast] at hrot
  rw [hstart] at htaken
  obtain ⟨es, es', hes, hjoins, hout⟩ := Rotation.taken_between hqueue hjoin hrot
    (htaken ▸ hno)
  obtain ⟨held, a, rest, m, rfl, hm, hheld, ha⟩ :=
    Machine.exists_step_of_observe length_turn_le hbetween hes
  obtain ⟨put, b', t', rfl, hput⟩ := eq_put_of_turn ha
  -- up to here the task was in hand, and the others have joined the queue
  have hstill := Rotation.run_joins hjoins
    (hheld ▸ Machine.run_refines (f := rotation) (fun _ _ _ h => step_turn h) hm)
  rw [hstart, rotation_of_worker hput] at hstill
  obtain ⟨hwait, hserved⟩ := Rotation.mk.inj hstill
  have henters : es.filterMap Rotation.Event.joins = step.observe enters s held := by
    rw [← hheld, Machine.observe_filterMap]
    simp only [joins_turn]
  rw [htaken, henters] at hout
  refine ⟨held, put, rest, m, b', t', rfl, hm, hput, Option.some.inj hserved, hout, ?_⟩
  rw [hout, ← henters, ← hwait]
  -- all of them are queued when the task is put back, and no task is queued twice
  have hend : step.run init (before ++ held) = some m := by
    rw [Machine.run_append, hrun]
    exact hm
  have hnodup := places_nodup hend
  simp only [places, tuples, List.map_append, List.append_assoc] at hnodup
  exact (List.nodup_append.mp hnodup).1

/-- Two looping tasks are queued, and the first is taken. -/
def firstTaken : List (Action Unit) :=
  pushed 0 (.postLoopTask ()) ++ pushed 1 (.postLoopTask ()) ++ List.replicate 3 (.worker 0)

/-- A third task is pushed while the first is run. Then the second is run, the batch ends, and in
the next batch the third is run. -/
def untilNextTurn : List (Action Unit) :=
  .worker 0 :: pushed 2 (.postTask ()) ++ .functorEnds 0 (.returns .CONTINUE) ::
    List.replicate 4 (.worker 0) ++ .functorEnds 1 (.returns .CONTINUE) ::
    List.replicate 3 (.worker 0) ++ .pushBegin 3 (.postTask ()) 0 ::
    List.replicate 7 (.worker 0) ++ [.functorEnds 2 (.returns .FINISH)]

/-- Two looping tasks: between two turns of the first the second has its turn, and so has the task
that was queued in the meantime. -/
theorem round_robin_two_tasks : ∃ s u held rest,
    step.run init firstTaken = some s ∧ step.run s untilNextTurn = some u ∧
      untilNextTurn = held ++ rest ∧ step.observe takes s untilNextTurn = [1, 2] ∧
      step.observe takes s untilNextTurn =
        s.queue.map Tuple.id ++ step.observe enters s held := by
  have hround := @round_robin Unit firstTaken untilNextTurn _ _ _ _ 0 rfl rfl rfl rfl (by decide)
  obtain ⟨held, put, rest, m, b', t', hsplit, -, -, -, htakes, -⟩ := hround
  exact ⟨_, _, held, .worker put :: rest, rfl, rfl, hsplit, rfl, htakes⟩

end FHT.Task.Thread
