import FHT.Task.Steps

/-!
# Batches

A batch is one pass of the loop over the tasks that `sizeTask` counted. While it goes on,
the tasks examined and the tasks ahead are together the ones that were counted, in queue
order: pushes and requeued tasks only come behind them.

## Main results

- `Thread.step_progress` — what a step does to the current batch
- `Thread.fits` — `getTask` never meets an empty queue
-/

namespace FHT.Task

variable {F : Type*}

/-- Whether a batch is going on. -/
def Worker.inBatch : Worker F → Bool
  | .next _ | .examine _ _ | .running _ _ | .stamp _ _ | .put _ _ => true
  | _ => false

/-- The ids that the batch has still to examine, where `q` is the queue. -/
def Worker.ahead (q : List (Tuple F)) : Worker F → List Nat
  | .next b => (q.take b.remaining).map Tuple.id
  | .examine b t => t.id :: (q.take (b.remaining - 1)).map Tuple.id
  | .running b _ | .stamp b _ | .put b _ => (q.take (b.remaining - 1)).map Tuple.id
  | _ => []

/-- The queue holds what the batch still has to take from it. -/
def Worker.Fits (q : List (Tuple F)) : Worker F → Prop
  | .next b => b.remaining ≤ q.length
  | .examine b _ | .running b _ | .stamp b _ | .put b _ => b.remaining - 1 ≤ q.length
  | .fault => False
  | _ => True

/-- A task pushed during a batch is not ahead in it. -/
theorem Worker.ahead_append {w : Worker F} {q : List (Tuple F)} (h : w.Fits q)
    (l : List (Tuple F)) : w.ahead (q ++ l) = w.ahead q := by
  cases w with
  | next b | examine b t | running b t | stamp b t | put b t =>
    simp only [Worker.ahead, List.take_append_of_le_length h]
  | _ => rfl

theorem Worker.Fits.append {w : Worker F} {q : List (Tuple F)} (h : w.Fits q)
    (l : List (Tuple F)) : w.Fits (q ++ l) := by
  cases w with
  | next b | examine b t | running b t | stamp b t | put b t =>
    simp only [Worker.Fits, List.length_append] at h ⊢
    omega
  | fault => exact h
  | _ => trivial

namespace Thread

def ahead (s : Thread F) : List Nat := s.worker.ahead s.queue

def Fits (s : Thread F) : Prop := s.worker.Fits s.queue

/-- What a step does to the batch: the worker is between batches, or starts one, or goes on in
it, or ends it with nothing ahead, or leaves it by an exception. -/
inductive Progress (s : Thread F) : Action F → Thread F → Prop
  | wait {a s'} (hs : s.worker.inBatch = false) (hs' : s'.worker.inBatch = false)
      (hb : s'.batches = s.batches) (hq : s.queue <+: s'.queue) (hseen : s'.seen = s.seen) :
      Progress s a s'
  | count {now s'} (hs : s.worker.inBatch = false) (hs' : s'.worker.inBatch = true)
      (hb : s'.batches = s.batches + 1) (hseen : s'.seen = [])
      (ha : s'.ahead = s.queue.map Tuple.id) : Progress s (.worker now) s'
  | go {a s'} (hs : s.worker.inBatch = true) (hs' : s'.worker.inBatch = true)
      (hb : s'.batches = s.batches) (ha : s'.seen ++ s'.ahead = s.seen ++ s.ahead) :
      Progress s a s'
  | finish {now s'} (hs : s.worker.inBatch = true) (hs' : s'.worker.inBatch = false)
      (hb : s'.batches = s.batches) (hseen : s'.seen = s.seen) (ha : s.ahead = []) :
      Progress s (.worker now) s'
  | throw {i e s'} (hs : s.worker.inBatch = true) (hs' : s'.worker.inBatch = false)
      (hb : s'.batches = s.batches) (hseen : s'.seen = s.seen) :
      Progress s (.functorEnds i (.throws e)) s'

/-- A step of another thread: the worker stays or is woken, and tasks come in at the end. -/
structure Beside (s s' : Thread F) : Prop where
  worker : s'.worker = s.worker ∨ s'.worker = s.notifyOne.worker
  queue : s.queue <+: s'.queue
  seen : s'.seen = s.seen
  batches : s'.batches = s.batches

theorem Idle.beside {s s' : Thread F} (h : s.Idle s') : s.Beside s' :=
  ⟨h.worker, h.queue ▸ List.prefix_rfl, h.seen, h.batches⟩

theorem pushBegin_beside {s s' : Thread F} {i : Nat} {function : Functor F} {ms : Int}
    (h : s.pushBegin i function ms = some s') : s.Beside s' := by
  obtain ⟨-, rfl⟩ := pushBegin_eq_some h
  exact ⟨.inl rfl, List.prefix_rfl, rfl, rfl⟩

theorem pushStep_beside {s s' : Thread F} {i : Nat} {now : Int}
    (h : s.pushStep i now = some s') : s.Beside s' := by
  cases pushStep_cases h with
  | stamp => exact ⟨.inl rfl, List.prefix_rfl, rfl, rfl⟩
  | enqueue => exact ⟨.inl rfl, List.prefix_append _ _, rfl, rfl⟩
  | notify => exact ⟨.inr rfl, List.prefix_rfl, rfl, rfl⟩

theorem Beside.inBatch {s s' : Thread F} (h : s.Beside s') :
    s'.worker.inBatch = s.worker.inBatch := by
  rcases h.worker with hw | hw
  · rw [hw]
  · rw [hw, notifyOne]
    cases s.worker <;> rfl

/-- The batch is the same over the longer queue. -/
theorem Beside.ahead {s s' : Thread F} (h : s.Beside s') (hs : s.Fits) : s'.ahead = s.ahead := by
  obtain ⟨l, hl⟩ := h.queue
  unfold Thread.ahead
  rw [← hl]
  rcases h.worker with hw | hw
  · rw [hw, Worker.ahead_append hs]
  · rw [← Worker.ahead_append hs l, hw, notifyOne]
    cases s.worker <;> rfl

theorem Beside.fits {s s' : Thread F} (h : s.Beside s') (hs : s.Fits) : s'.Fits := by
  obtain ⟨l, hl⟩ := h.queue
  have hfits := Worker.Fits.append hs l
  rw [Thread.Fits, ← hl]
  rcases h.worker with hw | hw
  · rwa [hw]
  · rw [hw, notifyOne]
    revert hfits
    cases s.worker <;> exact id

theorem Beside.progress {s s' : Thread F} {a : Action F} (h : s.Beside s') (hs : s.Fits) :
    s.Progress a s' := by
  cases hb : s.worker.inBatch with
  | false => exact .wait hb (h.inBatch.trans hb) h.batches h.queue h.seen
  | true => exact .go hb (h.inBatch.trans hb) h.batches (by rw [h.ahead hs, h.seen])

theorem Fits.worker {s : Thread F} {w : Worker F} (hs : s.Fits) (hw : s.worker = w) :
    w.Fits s.queue := hw ▸ hs

theorem inBatch_of_worker {s : Thread F} {w : Worker F} (hw : s.worker = w) :
    s.worker.inBatch = w.inBatch := by
  rw [hw]

theorem ahead_of_worker {s : Thread F} {w : Worker F} (hw : s.worker = w) :
    s.ahead = w.ahead s.queue := by
  rw [Thread.ahead, hw]

/-- The worker's own steps. -/
private theorem workerStep_progress {s s' : Thread F} {now : Int} (hs : s.Fits)
    (h : s.workerStep now = some s') : s.Progress (.worker now) s' ∧ s'.Fits := by
  cases workerStep_cases h with
  | head hw | closing hw | retWait hw =>
    refine ⟨.wait (inBatch_of_worker hw) ?_ rfl List.prefix_rfl rfl, ?_⟩
    · dsimp only
      split <;> rfl
    · rw [Thread.Fits]
      dsimp only
      split <;> trivial
  | sleep hw | isWait hw | relock hw =>
    exact ⟨.wait (inBatch_of_worker hw) rfl rfl List.prefix_rfl rfl, trivial⟩
  | count hw =>
    refine ⟨.count (inBatch_of_worker hw) rfl rfl rfl ?_, Nat.le_refl _⟩
    simp only [Thread.ahead, Worker.ahead, List.take_length]
  | finish hw hr =>
    refine ⟨.finish (inBatch_of_worker hw) rfl rfl rfl ?_, trivial⟩
    simp [ahead_of_worker hw, Worker.ahead, hr]
  | @fault b hw hr hq =>
    -- `getTask` on an empty queue: excluded, since the batch still has to take a task
    have hfits : b.remaining ≤ s.queue.length := hs.worker hw
    rw [hq, List.length_nil] at hfits
    omega
  | @pop b t q hw hr hq =>
    have hfits : b.remaining ≤ s.queue.length := hs.worker hw
    obtain ⟨r, hr⟩ := Nat.exists_eq_succ_of_ne_zero hr
    rw [hq, hr, List.length_cons] at hfits
    refine ⟨.go (inBatch_of_worker hw) rfl rfl ?_, ?_⟩
    · simp [Thread.ahead, Worker.ahead, hw, hq, hr]
    · simp only [Thread.Fits, Worker.Fits, hr]
      omega
  | early hw | drop hw | run hw =>
    have hfits := hs.worker hw
    refine ⟨.go (inBatch_of_worker hw) rfl rfl ?_, hfits⟩
    simp [Thread.ahead, Worker.ahead, Batch.sleepAtMost, hw]
  | stamp hw =>
    have hfits := hs.worker hw
    refine ⟨.go (inBatch_of_worker hw) rfl rfl ?_, hfits⟩
    simp [Thread.ahead, Worker.ahead, hw]
  | @put b t hw =>
    have hfits : b.remaining - 1 ≤ s.queue.length := hs.worker hw
    refine ⟨.go (inBatch_of_worker hw) rfl rfl ?_, ?_⟩
    · -- the requeued task comes behind those that the batch takes
      simp only [Thread.ahead, Worker.ahead, hw, List.take_append_of_le_length hfits]
    · simp only [Thread.Fits, Worker.Fits, List.length_append]
      omega

private theorem functorEnds_progress {s s' : Thread F} {i : Nat} {o : Outcome} (hs : s.Fits)
    (h : s.functorEnds i o = some s') : s.Progress (.functorEnds i o) s' ∧ s'.Fits := by
  cases functorEnds_cases h with
  | again hw | retire hw =>
    have hfits := hs.worker hw
    refine ⟨.go (inBatch_of_worker hw) rfl rfl ?_, hfits⟩
    simp [Thread.ahead, Worker.ahead, hw]
  | throw hw =>
    refine ⟨.throw (inBatch_of_worker hw) ?_ rfl rfl, ?_⟩
    · dsimp only
      split <;> rfl
    · rw [Thread.Fits]
      dsimp only
      split <;> trivial

/-- What a step does to the current batch. -/
theorem step_progress {s s' : Thread F} {a : Action F} (hs : s.Fits) (h : step s a = some s') :
    s.Progress a s' ∧ s'.Fits := by
  have h := act_of_step h
  have hbeside : s.Beside s' → s.Progress a s' ∧ s'.Fits :=
    fun hb => ⟨hb.progress hs, hb.fits hs⟩
  cases a with
  | worker now => exact workerStep_progress hs h
  | functorEnds i o => exact functorEnds_progress hs h
  | pushBegin i function ms => exact hbeside (pushBegin_beside h)
  | push i now => exact hbeside (pushStep_beside h)
  | timer => exact hbeside (timerStep_idle h).beside
  | destructor => exact hbeside (destructorStep_idle h).beside
  | spurious => exact hbeside (spurious_idle h).beside

/-- In every reachable state the queue holds what the current batch still has to take: the
worker never pops an empty queue. -/
theorem fits {acts : List (Action F)} {s : Thread F} (hrun : step.run init acts = some s) :
    s.Fits := by
  have hinit : (init : Thread F).Fits := trivial
  exact Machine.run_invariant (I := Fits) (fun _ _ _ hu ht => (step_progress hu ht).2) hinit hrun

end Thread

end FHT.Task
