import FHT.Task.Turns

/-!
# What one batch does

A batch takes exactly the tasks that were in the queue when `sizeTask` counted them, and looks at
each of them once. What is put into the queue meanwhile comes behind them, and is all that the
queue holds when the batch is over.

## Main definitions

- `BatchEvent` — what is seen of a batch: `getTask`, the examination, the run, `putTask`
- `Thread.Batched` — the steps from the count to the end of the batch
- `HandlesExactly` — the events of a batch are those of the tasks that were counted

## Main results

- `Thread.step_continues` — what one step does to the tasks that the batch has still to take
- `Thread.batch_exact` — every batch in which no functor throws handles exactly its tasks
-/

namespace FHT.Task

variable {F : Type*}

/-- What is seen of a batch. `getTask` is `none` on an empty queue. -/
inductive BatchEvent (F : Type*)
  | getTask (task : Option (Tuple F))
  | examined (task : Tuple F)
  | ran (task : Tuple F)
  | requeued (task : Tuple F)
  | pushed (task : Tuple F)

namespace BatchEvent

def taken : BatchEvent F → Option (Option (Tuple F))
  | getTask task => some task
  | examined _ | ran _ | requeued _ | pushed _ => none

def looked : BatchEvent F → Option (Tuple F)
  | examined task => some task
  | getTask _ | ran _ | requeued _ | pushed _ => none

def running : BatchEvent F → Option (Tuple F)
  | ran task => some task
  | getTask _ | examined _ | requeued _ | pushed _ => none

/-- The calls of `putTask`. -/
def put : BatchEvent F → Option (Tuple F)
  | requeued task | pushed task => some task
  | getTask _ | examined _ | ran _ => none

end BatchEvent

def Functor.isEmpty : Functor F → Bool
  | .empty => true
  | .postTask _ | .postLoopTask _ => false

/-- A batch with this reading runs the task: it is due, by the difference in whole milliseconds,
and its functor is not empty. -/
def Tuple.isRun (realtime : Int) (t : Tuple F) : Bool :=
  t.ms ≤ (realtime - t.ts).tdiv 1000000 ∧ t.function.isEmpty = false

/-- The batch that counted the tasks `q` has taken just these, in their order, examined each of
them once and run those that it had to. The queue is what was put into it meanwhile. -/
structure HandlesExactly (q : List (Tuple F)) (realtime : Int) (es : List (BatchEvent F))
    (queue : List (Tuple F)) : Prop where
  taken : es.filterMap BatchEvent.taken = q.map some
  examined : es.filterMap BatchEvent.looked = q
  ran : es.filterMap BatchEvent.running = q.filter (Tuple.isRun realtime)
  once : ((es.filterMap BatchEvent.running).map Tuple.id).Nodup
  queue : queue = es.filterMap BatchEvent.put

namespace Thread

/-- The events of a step. -/
def round (s : Thread F) (a : Action F) : List (BatchEvent F) :=
  match a with
  | .push i _ =>
    match s.pushes i with
    | some ⟨function, ms, .stamped ts⟩ => [.pushed ⟨i, function, ms, true, ts⟩]
    | _ => []
  | .worker _ =>
    match s.worker with
    | .next b => if b.remaining = 0 then [] else [.getTask s.queue.head?]
    | .examine _ t =>
      match (step s a).map Thread.worker with
      | some (.running _ u) => [.examined t, .ran u]
      | _ => [.examined t]
    | .put _ t => [.requeued t]
    | _ => []
  | .pushBegin _ _ _ | .functorEnds _ _ | .timer | .destructor | .spurious => []

def Action.isThrow : Action F → Bool
  | .functorEnds _ (.throws _) => true
  | _ => false

/-- The step is made in the batch, and is not the end of a functor that throws. -/
def InRound (s : Thread F) (a : Action F) (_ : Thread F) : Prop :=
  s.worker.inBatch = true ∧ a.isThrow = false

instance (s : Thread F) (a : Action F) (s' : Thread F) : Decidable (InRound s a s') :=
  inferInstanceAs (Decidable (_ ∧ _))

/-- The worker has read the clock and counts in `s`, by the first of the steps `acts`; the others
go on to the end of the batch, which no functor leaves by an exception, and `t` is the state behind
it. -/
structure Batched (s : Thread F) (realtime : Int) (acts : List (Action F)) (t : Thread F) :
    Prop where
  count : s.worker = .count realtime
  nonempty : s.queue ≠ []
  round : ∃ now rest u, acts = .worker now :: rest ∧ step s (.worker now) = some u ∧
    step.run u rest = some t ∧ step.Along InRound u rest
  ended : t.worker.inBatch = false

end Thread

/-- The task that the batch has taken and not yet examined. -/
def Worker.looking : Worker F → Option (Tuple F)
  | .examine _ t => some t
  | _ => none

/-- In the batch that counted the tasks `q`: what was taken and what it has still to take are
these, and behind them in the queue is what was put there meanwhile. -/
structure Going (q : List (Tuple F)) (realtime : Int) (es : List (BatchEvent F)) (w : Worker F)
    (queue : List (Tuple F)) : Prop where
  reading : w.reading = some realtime
  left : w.left ≤ queue.length
  taken : es.filterMap BatchEvent.taken ++ (queue.take w.left).map some = q.map some
  put : queue.drop w.left = es.filterMap BatchEvent.put
  looked : (es.filterMap BatchEvent.looked ++ w.looking.toList).map some =
    es.filterMap BatchEvent.taken
  ran : es.filterMap BatchEvent.running =
    (es.filterMap BatchEvent.looked).filter (Tuple.isRun realtime)

/-- The batch that counted the tasks `q` is over. -/
structure Over (q : List (Tuple F)) (realtime : Int) (es : List (BatchEvent F))
    (queue : List (Tuple F)) : Prop where
  taken : es.filterMap BatchEvent.taken = q.map some
  looked : es.filterMap BatchEvent.looked = q
  ran : es.filterMap BatchEvent.running = q.filter (Tuple.isRun realtime)
  put : queue = es.filterMap BatchEvent.put

section Steps

variable {q queue : List (Tuple F)} {realtime : Int} {es : List (BatchEvent F)} {w w' : Worker F}

/-- What is put into the queue comes behind the batch. -/
theorem Going.enqueue (h : Going q realtime es w queue) {t : Tuple F} {e : BatchEvent F}
    (he : e = .pushed t ∨ e = .requeued t) (hreading : w'.reading = w.reading)
    (hleft : w'.left = w.left) (hlooking : w'.looking = w.looking) :
    Going q realtime (es ++ [e]) w' (queue ++ [t]) := by
  have htaken : [e].filterMap BatchEvent.taken = [] := by rcases he with rfl | rfl <;> rfl
  have hlooked : [e].filterMap BatchEvent.looked = [] := by rcases he with rfl | rfl <;> rfl
  have hrunning : [e].filterMap BatchEvent.running = [] := by rcases he with rfl | rfl <;> rfl
  have hput : [e].filterMap BatchEvent.put = [t] := by rcases he with rfl | rfl <;> rfl
  refine ⟨hreading.trans h.reading, ?_, ?_, ?_, ?_, ?_⟩
  · rw [hleft, List.length_append]
    exact h.left.trans (Nat.le_add_right _ _)
  · rw [hleft, List.take_append_of_le_length h.left, List.filterMap_append, htaken,
      List.append_nil]
    exact h.taken
  · rw [hleft, List.drop_append_of_le_length h.left, List.filterMap_append, hput, h.put]
  · rw [hlooking, List.filterMap_append, hlooked, List.append_nil, List.filterMap_append, htaken,
      List.append_nil]
    exact h.looked
  · rw [List.filterMap_append, hrunning, List.append_nil, List.filterMap_append, hlooked,
      List.append_nil]
    exact h.ran

/-- A step without an event. -/
theorem Going.goOn (h : Going q realtime es w queue) (hreading : w'.reading = w.reading)
    (hleft : w'.left = w.left) (hlooking : w'.looking = w.looking) :
    Going q realtime (es ++ []) w' queue := by
  rw [List.append_nil]
  exact ⟨hreading.trans h.reading, hleft ▸ h.left, hleft ▸ h.taken, hleft ▸ h.put,
    hlooking ▸ h.looked, h.ran⟩

/-- `getTask`, with tasks left to take. -/
theorem Going.pop {b : Batch} (h : Going q realtime es (.next b) queue) (hpos : b.remaining ≠ 0) :
    ∃ t rest, queue = t :: rest ∧
      Going q realtime (es ++ [.getTask (some t)]) (.examine b t) rest := by
  obtain ⟨n, hn⟩ := Nat.exists_eq_succ_of_ne_zero hpos
  have hlength : b.remaining ≤ queue.length := h.left
  cases queue with
  | nil =>
    rw [List.length_nil] at hlength
    omega
  | cons t rest =>
    refine ⟨t, rest, rfl, h.reading, ?_, ?_, ?_, ?_, ?_⟩
    · show b.remaining - 1 ≤ rest.length
      rw [List.length_cons] at hlength
      omega
    · have htaken := h.taken
      simp only [Worker.left, hn, List.take_succ_cons, List.map_cons] at htaken
      simp only [Worker.left, hn, Nat.succ_sub_one, List.filterMap_append]
      rw [List.append_assoc]
      exact htaken
    · have hput := h.put
      simp only [Worker.left, hn, List.drop_succ_cons] at hput
      simp only [Worker.left, hn, Nat.succ_sub_one, List.filterMap_append]
      rw [hput]
      exact (List.append_nil _).symm
    · have hlooked := h.looked
      simp only [Worker.looking, Option.toList_none, List.append_nil] at hlooked
      rw [List.filterMap_append, List.filterMap_append, List.map_append, ← hlooked,
        List.map_append]
      simp [List.filterMap_cons, BatchEvent.looked, BatchEvent.taken, Worker.looking]
    · rw [List.filterMap_append, List.filterMap_append, h.ran]
      simp [List.filterMap_cons, BatchEvent.looked, BatchEvent.running]

/-- With nothing left to take the batch is over. -/
theorem Going.finish {b : Batch} (h : Going q realtime es (.next b) queue)
    (hzero : b.remaining = 0) : Over q realtime (es ++ []) queue := by
  have htaken := h.taken
  have hput := h.put
  have hlooked := h.looked
  simp only [Worker.left, hzero, List.take_zero, List.map_nil, List.append_nil] at htaken
  simp only [Worker.left, hzero, List.drop_zero] at hput
  simp only [Worker.looking, Option.toList_none, List.append_nil] at hlooked
  have hq : es.filterMap BatchEvent.looked = q :=
    List.map_injective_iff.mpr (fun _ _ => Option.some.inj) (hlooked.trans htaken)
  rw [List.append_nil]
  exact ⟨htaken, hq, hq ▸ h.ran, hput⟩

/-- The examination: the task is run if it has to be. -/
theorem Going.examine {b : Batch} {t : Tuple F} (h : Going q realtime es (.examine b t) queue)
    {es' : List (BatchEvent F)} (hreading : w'.reading = some b.realtime)
    (hleft : w'.left = b.remaining - 1) (hlooking : w'.looking = none)
    (hes : es' = .examined t :: if t.isRun b.realtime then [.ran t] else []) :
    Going q realtime (es ++ es') w' queue := by
  obtain rfl : b.realtime = realtime := Option.some.inj h.reading
  have htaken : es'.filterMap BatchEvent.taken = [] := by
    rw [hes]
    split <;> rfl
  have hput : es'.filterMap BatchEvent.put = [] := by
    rw [hes]
    split <;> rfl
  have hlooked : es'.filterMap BatchEvent.looked = [t] := by
    rw [hes]
    split <;> rfl
  have hrunning : es'.filterMap BatchEvent.running = [t].filter (Tuple.isRun b.realtime) := by
    rw [hes]
    split
    · next hrun => simp [List.filterMap_cons, BatchEvent.running, hrun]
    · next hrun => simp [List.filterMap_cons, BatchEvent.running, hrun]
  refine ⟨hreading, hleft ▸ h.left, ?_, ?_, ?_, ?_⟩
  · rw [hleft, List.filterMap_append, htaken, List.append_nil]
    exact h.taken
  · rw [hleft, List.filterMap_append, hput, List.append_nil]
    exact h.put
  · rw [hlooking, List.filterMap_append, hlooked, List.filterMap_append, htaken, List.append_nil,
      Option.toList_none, List.append_nil]
    exact h.looked
  · rw [List.filterMap_append, hrunning, List.filterMap_append, hlooked, List.filter_append, h.ran]

end Steps

namespace Thread

variable {q : List (Tuple F)} {realtime : Int} {es : List (BatchEvent F)}

/-- The batch goes on, or is over. -/
def Continues (q : List (Tuple F)) (realtime : Int) (es : List (BatchEvent F)) (s : Thread F) :
    Prop :=
  s.worker.inBatch = true ∧ Going q realtime es s.worker s.queue ∨
    s.worker.inBatch = false ∧ Over q realtime es s.queue

theorem notifyOne_of_inBatch {s : Thread F} (h : s.worker.inBatch = true) :
    s.notifyOne.worker = s.worker := by
  rcases notifyOne_worker_cases s with hw | ⟨hout, -⟩
  · exact hw
  · rw [h] at hout
    cases hout

/-- A step of another thread that leaves the queue alone. -/
theorem continues_of_same {s s' : Thread F} (h : Going q realtime es s.worker s.queue)
    (hin : s.worker.inBatch = true) (hw : s'.worker = s.worker) (hq : s'.queue = s.queue) :
    s'.Continues q realtime (es ++ []) := by
  refine .inl ⟨hw ▸ hin, ?_⟩
  rw [hw, hq]
  exact h.goOn rfl rfl rfl

theorem continues_of_idle {s s' : Thread F} (h : Going q realtime es s.worker s.queue)
    (hin : s.worker.inBatch = true) (hs : s.Idle s') : s'.Continues q realtime (es ++ []) := by
  refine continues_of_same h hin ?_ hs.queue
  rcases hs.worker with hw | hw
  · exact hw
  · exact hw.trans (notifyOne_of_inBatch hin)

private theorem pushStep_continues {s s' : Thread F} {i : Nat} {now : Int}
    (h : Going q realtime es s.worker s.queue) (hin : s.worker.inBatch = true)
    (hs : s.pushStep i now = some s') :
    s'.Continues q realtime (es ++ s.round (.push i now)) := by
  cases pushStep_cases hs with
  | @stamp p hi hst =>
    obtain ⟨function, ms, stage⟩ := p
    obtain rfl : stage = .begun := hst
    simp only [round, hi]
    exact continues_of_same h hin rfl rfl
  | @enqueue p ts hi hst =>
    obtain ⟨function, ms, stage⟩ := p
    obtain rfl : stage = .stamped ts := hst
    simp only [round, hi]
    exact .inl ⟨hin, h.enqueue (.inl rfl) rfl rfl rfl⟩
  | @notify p hi hst =>
    obtain ⟨function, ms, stage⟩ := p
    obtain rfl : stage = .queued := hst
    simp only [round, hi]
    exact continues_of_same h hin (notifyOne_of_inBatch hin) rfl

private theorem workerStep_continues {s s' : Thread F} {now : Int}
    (h : Going q realtime es s.worker s.queue) (hin : s.worker.inBatch = true)
    (hs : step s (.worker now) = some s') :
    s'.Continues q realtime (es ++ s.round (.worker now)) := by
  simp only [round, hs, Option.map_some]
  cases workerStep_cases (act_of_step hs) with
  | finish hw hr =>
    rw [hw] at h
    simp only [hw, if_pos hr]
    exact .inr ⟨rfl, h.finish hr⟩
  | fault hw hr hq =>
    rw [hw] at h
    obtain ⟨t, rest, hcons, -⟩ := h.pop hr
    rw [hq] at hcons
    cases hcons
  | pop hw hr hq =>
    rw [hw] at h
    obtain ⟨t, rest, hcons, hgoing⟩ := h.pop hr
    obtain ⟨rfl, rfl⟩ := List.cons.inj (hq.symm.trans hcons)
    simp only [hw, if_neg hr, hq]
    exact .inl ⟨rfl, hgoing⟩
  | @early b t hw hd =>
    have hrun : t.isRun b.realtime = false :=
      decide_eq_false fun hrun => absurd hrun.1 (Int.not_le.mpr hd)
    rw [hw] at h
    simp only [hw]
    exact .inl ⟨rfl, h.examine rfl rfl rfl (by rw [hrun]; rfl)⟩
  | @drop b t hw _ hf =>
    have hrun : t.isRun b.realtime = false := by simp [Tuple.isRun, hf, Functor.isEmpty]
    rw [hw] at h
    simp only [hw]
    exact .inl ⟨rfl, h.examine rfl rfl rfl (by rw [hrun]; rfl)⟩
  | @run b t hw hd hf =>
    have hrun : t.isRun b.realtime = true := by
      refine decide_eq_true ⟨Int.not_lt.mp hd, ?_⟩
      cases hfun : t.function with
      | empty => exact absurd hfun hf
      | postTask | postLoopTask => rfl
    rw [hw] at h
    simp only [hw]
    exact .inl ⟨rfl, h.examine rfl rfl rfl (by rw [hrun]; rfl)⟩
  | stamp hw =>
    rw [hw] at h
    simp only [hw]
    exact .inl ⟨rfl, h.goOn rfl rfl rfl⟩
  | put hw =>
    rw [hw] at h
    simp only [hw]
    exact .inl ⟨rfl, h.enqueue (.inr rfl) rfl rfl rfl⟩
  | head hw | sleep hw | count hw | closing hw | isWait hw | retWait hw | relock hw =>
    rw [hw] at hin
    cases hin

private theorem functorEnds_continues {s s' : Thread F} {i : Nat} {o : Outcome}
    (h : Going q realtime es s.worker s.queue) (hs : s.functorEnds i o = some s')
    (hreturns : ∀ e, o ≠ .throws e) : s'.Continues q realtime (es ++ []) := by
  cases functorEnds_cases hs with
  | again hw | retire hw =>
    rw [hw] at h
    exact .inl ⟨rfl, h.goOn rfl rfl rfl⟩
  | throw => exact absurd rfl (hreturns _)

/-- One step of a batch, of whatever thread. -/
theorem step_continues {s s' : Thread F} {a : Action F} (h : Going q realtime es s.worker s.queue)
    (hs : step s a = some s') (hround : InRound s a s') :
    s'.Continues q realtime (es ++ s.round a) := by
  obtain ⟨hin, hreturns⟩ := hround
  have hact := act_of_step hs
  cases a with
  | worker now => exact workerStep_continues h hin hs
  | push i now => exact pushStep_continues h hin hact
  | functorEnds i o =>
    refine functorEnds_continues h hact ?_
    rintro e rfl
    cases hreturns
  | pushBegin i function ms =>
    obtain ⟨-, rfl⟩ := pushBegin_eq_some hact
    exact continues_of_same h hin rfl rfl
  | timer => exact continues_of_idle h hin (timerStep_idle hact)
  | destructor => exact continues_of_idle h hin (destructorStep_idle hact)
  | spurious => exact continues_of_idle h hin (spurious_idle hact)

/-- The count begins the batch with the whole queue. -/
theorem going_of_count {s u : Thread F} {now : Int} (hw : s.worker = .count realtime)
    (hq : s.queue ≠ []) (hs : step s (.worker now) = some u) :
    s.round (.worker now) = [] ∧ u.worker.inBatch = true ∧
      Going s.queue realtime [] u.worker u.queue := by
  have hact : s.workerStep now = some u := act_of_step hs
  simp only [workerStep, hw] at hact
  split at hact
  · next hnil => exact absurd hnil hq
  · next t rest hcons =>
    obtain rfl := Option.some.inj hact
    refine ⟨by simp only [round, hw], rfl, rfl, ?_, ?_, ?_, rfl, rfl⟩
    · simp [Worker.left, hcons]
    · simp [Worker.left, hcons]
    · simp [Worker.left, hcons]

/-- In every batch in which no functor throws, whatever is pushed meanwhile, `getTask` never meets
an empty queue and returns the tasks that were counted, in their order, each is examined once, and
run if it is due and its functor is not empty; the queue behind the batch is what was put into it
in the batch. -/
theorem batch_exact {before acts : List (Action F)} {s t : Thread F}
    (hbefore : step.run init before = some s) (h : s.Batched realtime acts t) :
    HandlesExactly s.queue realtime (step.observe round s acts) t.queue := by
  obtain ⟨now, rest, u, rfl, hs, hrun, hround⟩ := h.round
  obtain ⟨hnil, hin, hgoing⟩ := going_of_count h.count h.nonempty hs
  have hend : t.Continues s.queue realtime (step.observe round u rest) :=
    Machine.Along.observed (I := fun es v => v.Continues s.queue realtime es)
      (fun es v a v' hv hs' ha => by
        rcases hv with ⟨-, hv⟩ | ⟨hout, -⟩
        · exact step_continues hv hs' ha
        · exact absurd ha.1 (by simp [hout]))
      (.inl ⟨hin, hgoing⟩) hround hrun
  have hes : step.observe round s (.worker now :: rest) = step.observe round u rest := by
    simp only [Machine.observe, hnil, hs, Option.elim_some, List.nil_append]
  rw [hes]
  rcases hend with ⟨hin', -⟩ | ⟨-, hover⟩
  · rw [h.ended] at hin'
    cases hin'
  · refine ⟨hover.taken, hover.looked, hover.ran, ?_, hover.put⟩
    rw [hover.ran]
    have hplaces := (List.nodup_append.mp (places_nodup hbefore)).1
    rw [tuples, List.map_append] at hplaces
    exact (List.filter_sublist.map _).nodup (List.nodup_append.mp hplaces).1

/-- A task that is due and one that is not, and the reading of the clock. -/
def twoQueued : List (Action Unit) :=
  postOnce 0 1 ++ [.pushBegin 1 (.postLoopTask ()) 5, .push 1 1, .push 1 1, .push 1 1, .worker 1]

/-- The batch runs the first and puts the second back, behind a third that comes meanwhile. -/
def batchOfTwo : List (Action Unit) :=
  [.worker 1, .worker 1, .worker 1, .functorEnds 0 (.returns .FINISH)] ++ postOnce 2 1 ++
    [.worker 1, .worker 1, .worker 1, .worker 1]

theorem batch_exact_batchOfTwo : ∃ s t, step.run init twoQueued = some s ∧
    s.Batched 1 batchOfTwo t ∧
    HandlesExactly s.queue 1 (step.observe round s batchOfTwo) t.queue := by
  refine ⟨_, _, rfl, (and_iff_left_of_imp fun hbatch => ?_).mpr
    ⟨rfl, List.cons_ne_nil _ _, ⟨1, _, _, rfl, rfl, rfl, ?_⟩, rfl⟩⟩
  · exact batch_exact (rfl : step.run init twoQueued = some _) hbatch
  · decide

/-- A task with an empty functor, and the reading of the clock. -/
def emptyQueued : List (Action Unit) :=
  [.pushBegin 0 .empty 0, .push 0 1, .push 0 1, .push 0 1, .worker 1]

/-- The batch examines it, and is over. -/
def batchOfEmpty : List (Action Unit) := List.replicate 4 (.worker 1)

/-- A task with an empty functor is due, and not run. -/
theorem empty_not_run : ∃ s t, step.run init emptyQueued = some s ∧ s.Batched 1 batchOfEmpty t ∧
    ∃ task ∈ s.queue, task.ms ≤ (1 - task.ts).tdiv 1000000 ∧
      task ∉ (step.observe round s batchOfEmpty).filterMap BatchEvent.running := by
  refine ⟨_, _, rfl, ⟨rfl, List.cons_ne_nil _ _, ⟨1, _, _, rfl, rfl, rfl, ?_⟩, rfl⟩,
    _, List.mem_cons_self, ?_, List.not_mem_nil⟩
  · decide
  · decide

end Thread

end FHT.Task
