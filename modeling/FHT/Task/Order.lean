import FHT.Lib.Line
import FHT.Task.Batch
import FHT.Task.Conservation

/-!
# Tasks of equal delay

A batch is a round over the queue. It examines its tasks in order, but a task that is not yet
due goes back behind those that were pushed while the worker had it, and a batch that an
exception ends leaves the rest in front of what it has put back. `Serves` says what a step does
to the line of tasks; whether two tasks of one delay keep their order is read off from it.

## Main definitions

- `Thread.line` — the tasks that the batch has still to examine, and those behind them
- `Thread.Keeps` — a step in which the later of two tasks does not overtake the earlier

## Main results

- `Thread.runs_in_order` — while every step keeps it, the task pushed first is run first
-/

namespace FHT.Task

variable {F : Type*}

/-- How many tasks the batch has still to take from the queue. -/
def Worker.left : Worker F → Nat
  | .next b => b.remaining
  | .examine b _ | .running b _ | .stamp b _ | .put b _ => b.remaining - 1
  | _ => 0

/-- A task of this delay, stamped at `ts`, is not yet due for the current batch. -/
def Worker.Early (ms ts : Int) : Worker F → Prop
  | .next b | .examine b _ | .running b _ | .stamp b _ | .put b _ => difftime b.realtime ts < ms
  | _ => False

theorem difftime_le {ts ts' : Int} (realtime : Int) (h : ts ≤ ts') :
    difftime realtime ts' ≤ difftime realtime ts :=
  Int.tdiv_le_tdiv (by decide) (by omega)

theorem Worker.Fits.left_le {w : Worker F} {q : List (Tuple F)} (h : w.Fits q) :
    w.left ≤ q.length := by
  cases w with
  | next | examine | running | stamp | put => exact h
  | _ => exact Nat.zero_le _

namespace Thread

/-- The ids of the tasks that the batch has still to examine, and of those behind them. -/
def line (s : Thread F) : Line Nat := ⟨s.ahead, (s.queue.drop s.worker.left).map Tuple.id⟩

/-- A step that leaves the line alone: the worker stays, or moves between batches. -/
structure Still (s s' : Thread F) : Prop where
  worker : s'.worker = s.worker ∨ s.worker.inBatch = false ∧ s'.worker.inBatch = false
  queue : s'.queue = s.queue
  line : s'.line = s.line
  retired : s'.retired = s.retired

/-- A step of the worker from `w` to `w'` in the batch read at one time. -/
structure Works (s s' : Thread F) (w w' : Worker F) : Prop where
  before : s.worker = w
  after : s'.worker = w'
  early : ∀ ms ts, w'.Early ms ts ↔ w.Early ms ts
  pushes : s'.pushes = s.pushes

/-- What a step does to the line. -/
inductive Serves (s : Thread F) : Action F → Thread F → Prop
  | stay {a s'} (hs : s.Still s') (hp : s'.pushes = s.pushes) : Serves s a s'
  | begin {i function ms s'} (hs : s.Still s') (hi : s.pushes i = none)
      (hp : s'.pushes = Function.update s.pushes i (some ⟨function, ms, .begun⟩)) :
      Serves s (.pushBegin i function ms) s'
  | stage {i now p stage s'} (hs : s.Still s') (hi : s.pushes i = some p)
      (hst : p.stage = .begun ∧ stage = .stamped now ∨ p.stage = .queued ∧ stage = .returned)
      (hp : s'.pushes = Function.update s.pushes i (some { p with stage := stage })) :
      Serves s (.push i now) s'
  | arrive {i now p ts s'} (hi : s.pushes i = some p) (hst : p.stage = .stamped ts)
      (hw : s'.worker = s.worker) (hq : s'.queue = s.queue ++ [⟨i, p.function, p.ms, true, ts⟩])
      (hl : s'.line = s.line.join i) (hr : s'.retired = s.retired)
      (hp : s'.pushes = Function.update s.pushes i (some { p with stage := .queued })) :
      Serves s (.push i now) s'
  | start {now b s'} (hw : s.worker.inBatch = false) (hw' : s'.worker = .next b)
      (hq : s'.queue = s.queue) (hl : s'.line = s.line.start) (hr : s'.retired = s.retired)
      (hp : s'.pushes = s.pushes) : Serves s (.worker now) s'
  | pop {now b t s'} (hw : s.Works s' (.next b) (.examine b t)) (hq : s.queue = t :: s'.queue)
      (hl : s'.line = s.line) (hr : s'.retired = s.retired) : Serves s (.worker now) s'
  | early {now b b' t s'} (hw : s.Works s' (.examine b t) (.put b' t))
      (hd : difftime b.realtime t.ts < t.ms) (hq : s'.queue = s.queue)
      (hl : s'.line = s.line.take) (hr : s'.retired = s.retired) : Serves s (.worker now) s'
  | run {now b b' t s'} (hw : s.Works s' (.examine b t) (.running b' t))
      (hd : ¬ difftime b.realtime t.ts < t.ms) (hq : s'.queue = s.queue)
      (hl : s'.line = s.line.take) (hr : s'.retired = s.retired) : Serves s (.worker now) s'
  | drop {now b b' t s'} (hw : s.Works s' (.examine b t) (.next b')) (hf : t.function = .empty)
      (hq : s'.queue = s.queue) (hl : s'.line = s.line.take)
      (hr : s'.retired = s.retired ++ [t.id]) : Serves s (.worker now) s'
  | again {b t s'} (hw : s.Works s' (.running b t) (.stamp b t))
      (hf : t.function.allows (.returns .CONTINUE)) (hq : s'.queue = s.queue)
      (hl : s'.line = s.line) (hr : s'.retired = s.retired) :
      Serves s (.functorEnds t.id (.returns .CONTINUE)) s'
  | stamp {now b t s'} (hw : s.Works s' (.stamp b t) (.put b { t with ts := now }))
      (hq : s'.queue = s.queue) (hl : s'.line = s.line) (hr : s'.retired = s.retired) :
      Serves s (.worker now) s'
  | requeue {now b b' t s'} (hw : s.Works s' (.put b t) (.next b'))
      (hq : s'.queue = s.queue ++ [t]) (hl : s'.line = s.line.join t.id)
      (hr : s'.retired = s.retired) : Serves s (.worker now) s'
  | retire {b b' t o s'} (hw : s.Works s' (.running b t) (.next b')) (hq : s'.queue = s.queue)
      (hl : s'.line = s.line) (hr : s'.retired = s.retired ++ [t.id]) :
      Serves s (.functorEnds t.id o) s'
  | throw {b t e s'} (hw : s.worker = .running b t)
      (hw' : s'.worker = if e.isException then .closing b.size else .terminated)
      (hq : s'.queue = s.queue) (hl : s'.line = s.line.stop)
      (hr : s'.retired = s.retired ++ [t.id]) (hp : s'.pushes = s.pushes) :
      Serves s (.functorEnds t.id (.throws e)) s'
  | finish {now b s'} (hw : s.worker = .next b) (hw' : s'.worker.inBatch = false)
      (hq : s'.queue = s.queue) (hl : s'.line = s.line.stop) (ha : s.line.ahead = [])
      (hr : s'.retired = s.retired) (hp : s'.pushes = s.pushes) : Serves s (.worker now) s'

theorem line_eq {s : Thread F} {w : Worker F} (hw : s.worker = w) :
    s.line = ⟨w.ahead s.queue, (s.queue.drop w.left).map Tuple.id⟩ := by
  subst hw
  rfl

/-- Outside a batch nothing is ahead. -/
theorem line_of_not_inBatch {s : Thread F} (h : s.worker.inBatch = false) :
    s.line = ⟨[], s.queue.map Tuple.id⟩ := by
  rw [line_eq rfl]
  cases hw : s.worker with
  | next | examine | running | stamp | put =>
    rw [hw] at h
    cases h
  | _ => rfl

theorem mem_tuples_of_mem_line {s : Thread F} {i : Nat} (h : i ∈ s.line.ahead ++ s.line.behind) :
    i ∈ s.tuples.map Tuple.id := by
  have hcut : ∀ n, (s.queue.take n).map Tuple.id ++ (s.queue.drop n).map Tuple.id =
      s.queue.map Tuple.id := by
    intro n
    rw [← List.map_append, List.take_append_drop]
  rw [tuples, List.map_append]
  cases hw : s.worker with
  | next b | running b t | stamp b t | put b t =>
    rw [line_eq hw] at h
    exact List.mem_append_left _ (hcut _ ▸ h)
  | examine b t =>
    rw [line_eq hw] at h
    rcases List.mem_cons.mp h with rfl | h
    · exact List.mem_append_right _ List.mem_cons_self
    · exact List.mem_append_left _ (hcut _ ▸ h)
  | _ =>
    rw [line_of_not_inBatch (by rw [hw]; rfl)] at h
    exact List.mem_append_left _ h

theorem notifyOne_worker_cases (s : Thread F) :
    s.notifyOne.worker = s.worker ∨
      s.worker.inBatch = false ∧ s.notifyOne.worker.inBatch = false := by
  rw [notifyOne]
  cases s.worker with
  | sleeping | blocked => exact .inr ⟨rfl, rfl⟩
  | _ => exact .inl rfl

theorem still_of_queue_eq {s s' : Thread F}
    (hw : s'.worker = s.worker ∨ s.worker.inBatch = false ∧ s'.worker.inBatch = false)
    (hq : s'.queue = s.queue) (hr : s'.retired = s.retired) : s.Still s' := by
  refine ⟨hw, hq, ?_, hr⟩
  rcases hw with hw | ⟨hs, hs'⟩
  · rw [line_eq hw, hq, line_eq rfl]
  · rw [line_of_not_inBatch hs, line_of_not_inBatch hs', hq]

theorem Idle.serves {s s' : Thread F} {a : Action F} (h : s.Idle s') : s.Serves a s' := by
  refine .stay (still_of_queue_eq ?_ h.queue h.retired) h.pushes
  rcases h.worker with hw | hw
  · exact .inl hw
  · rw [hw]
    exact notifyOne_worker_cases s

theorem line_append {s s' : Thread F} {t : Tuple F} (hs : s.Fits) (hw : s'.worker = s.worker)
    (hq : s'.queue = s.queue ++ [t]) : s'.line = s.line.join t.id := by
  rw [line_eq hw, hq, line_eq rfl, Line.join, Worker.ahead_append hs,
    List.drop_append_of_le_length (Worker.Fits.left_le hs), List.map_append]
  rfl

private theorem pushStep_serves {s s' : Thread F} {i : Nat} {now : Int} (hs : s.Fits)
    (h : s.pushStep i now = some s') : s.Serves (.push i now) s' := by
  cases pushStep_cases h with
  | stamp hi hst =>
    exact .stage (still_of_queue_eq (.inl rfl) rfl rfl) hi (.inl ⟨hst, rfl⟩) rfl
  | @enqueue p ts hi hst =>
    exact .arrive hi hst rfl rfl
      (line_append (t := ⟨i, p.function, p.ms, true, ts⟩) hs rfl rfl) rfl rfl
  | notify hi hst =>
    exact .stage (still_of_queue_eq (notifyOne_worker_cases _) rfl rfl) hi (.inr ⟨hst, rfl⟩) rfl

private theorem workerStep_serves {s s' : Thread F} {now : Int} (hs : s.Fits)
    (h : s.workerStep now = some s') : s.Serves (.worker now) s' := by
  cases workerStep_cases h with
  | head hw | closing hw | retWait hw =>
    refine .stay (still_of_queue_eq (.inr ⟨inBatch_of_worker hw, ?_⟩) rfl rfl) rfl
    dsimp only
    split <;> rfl
  | sleep hw | isWait hw | relock hw =>
    exact .stay (still_of_queue_eq (.inr ⟨inBatch_of_worker hw, rfl⟩) rfl rfl) rfl
  | count hw =>
    refine .start (inBatch_of_worker hw) rfl rfl ?_ rfl rfl
    rw [line_of_not_inBatch (inBatch_of_worker hw), line_eq rfl]
    simp [Line.start, Worker.ahead, Worker.left]
  | finish hw hr =>
    refine .finish hw rfl rfl ?_ ?_ rfl rfl
    · rw [line_eq hw, line_eq rfl]
      simp [Line.stop, Worker.ahead, Worker.left, hr]
    · rw [line_eq hw]
      simp [Worker.ahead, hr]
  | @fault b hw hr hq =>
    have hfits : b.remaining ≤ s.queue.length := hs.worker hw
    rw [hq, List.length_nil] at hfits
    omega
  | pop hw hr hq =>
    obtain ⟨r, hr⟩ := Nat.exists_eq_succ_of_ne_zero hr
    refine .pop ⟨hw, rfl, fun _ _ => Iff.rfl, rfl⟩ hq ?_ rfl
    rw [line_eq hw, line_eq rfl]
    simp [Worker.ahead, Worker.left, hq, hr]
  | early hw hd =>
    exact .early ⟨hw, rfl, fun _ _ => Iff.rfl, rfl⟩ hd rfl
      (by rw [line_eq hw, line_eq rfl]; rfl) rfl
  | drop hw _ hf =>
    exact .drop ⟨hw, rfl, fun _ _ => Iff.rfl, rfl⟩ hf rfl
      (by rw [line_eq hw, line_eq rfl]; rfl) rfl
  | run hw hd =>
    exact .run ⟨hw, rfl, fun _ _ => Iff.rfl, rfl⟩ hd rfl
      (by rw [line_eq hw, line_eq rfl]; rfl) rfl
  | stamp hw =>
    exact .stamp ⟨hw, rfl, fun _ _ => Iff.rfl, rfl⟩ rfl (by rw [line_eq hw, line_eq rfl]; rfl) rfl
  | @put b t hw =>
    have hfits : b.remaining - 1 ≤ s.queue.length := hs.worker hw
    refine .requeue ⟨hw, rfl, fun _ _ => Iff.rfl, rfl⟩ rfl ?_ rfl
    rw [line_eq hw, line_eq rfl]
    simp [Line.join, Worker.ahead, Worker.left, List.take_append_of_le_length hfits,
      List.drop_append_of_le_length hfits]

private theorem functorEnds_serves {s s' : Thread F} {i : Nat} {o : Outcome}
    (h : s.functorEnds i o = some s') : s.Serves (.functorEnds i o) s' := by
  cases functorEnds_cases h with
  | again hw hf =>
    exact .again ⟨hw, rfl, fun _ _ => Iff.rfl, rfl⟩ hf rfl
      (by rw [line_eq hw, line_eq rfl]; rfl) rfl
  | retire hw =>
    exact .retire ⟨hw, rfl, fun _ _ => Iff.rfl, rfl⟩ rfl
      (by rw [line_eq hw, line_eq rfl]; rfl) rfl
  | throw hw =>
    refine .throw hw rfl rfl ?_ rfl rfl
    rw [line_eq hw, line_of_not_inBatch (by dsimp only; split <;> rfl)]
    simp [Line.stop, Worker.ahead, Worker.left]

/-- Every step serves the line. -/
theorem step_serves {s s' : Thread F} {a : Action F} (hs : s.Fits) (h : step s a = some s') :
    s.Serves a s' := by
  have h := act_of_step h
  cases a with
  | pushBegin i function ms =>
    obtain ⟨hi, rfl⟩ := pushBegin_eq_some h
    exact .begin (still_of_queue_eq (.inl rfl) rfl rfl) hi rfl
  | push i now => exact pushStep_serves hs h
  | worker now => exact workerStep_serves hs h
  | functorEnds i o => exact functorEnds_serves h
  | timer => exact (timerStep_idle h).serves
  | destructor => exact (destructorStep_idle h).serves
  | spurious => exact (spurious_idle h).serves

/-- The step does not let the task of push `j` overtake that of push `i`: a task `i` that goes
back finds no `j` behind the batch, and no exception ends a batch that has `j` still ahead while
`i` waits behind it. -/
def Keeps (i j : Nat) (s : Thread F) (a : Action F) (_ : Thread F) : Prop :=
  match a with
  | .worker _ =>
    match s.worker with
    | .put _ t => t.id = i → j ∉ s.line.behind
    | _ => True
  | .functorEnds _ (.throws e) => e.isException → ¬ s.line.Crossed i j
  | _ => True

instance (i j : Nat) (s : Thread F) (a : Action F) (s' : Thread F) :
    Decidable (Keeps i j s a s') := by
  unfold Keeps Line.Crossed
  split
  · split <;> infer_instance
  · infer_instance
  · infer_instance

/-- The tasks of the pushes `i` and `j`, of delay `ms`, are in order. The clock has shown `c`
when the one was stamped and the other was not. -/
structure InOrder (i j : Nat) (ms c : Int) (s : Thread F) : Prop where
  ordered : s.line.Ordered i j
  crossed : s.line.Crossed i j → s.worker.Early ms c
  running : ∀ b t, s.worker = .running b t → t.id ≠ j

/-- What is known of the tasks when the worker handles them. -/
structure Stamped (i j : Nat) (ms c : Int) (s : Thread F) : Prop where
  ne : i ≠ j
  present : i ∈ s.tuples.map Tuple.id
  arrived : ∀ p ts, s.pushes i = some p → p.stage ≠ .stamped ts
  put : ∀ b t, s.worker = .put b t → t.id = i → s.worker.Early ms c
  second : ∀ t ∈ s.tuples, t.id = j → t.ms = ms ∧ c ≤ t.ts

theorem not_crossed_of_ahead {s : Thread F} {i j : Nat} (h : s.line.ahead = []) :
    ¬ s.line.Crossed i j := by
  rintro ⟨hj, -⟩
  rw [h] at hj
  cases hj

theorem ahead_of_not_inBatch {s : Thread F} (h : s.worker.inBatch = false) :
    s.line.ahead = [] := by
  rw [line_of_not_inBatch h]

theorem InOrder.still {i j : Nat} {ms c : Int} {s s' : Thread F} (h : s.InOrder i j ms c)
    (hs : s.Still s') : s'.InOrder i j ms c := by
  rcases hs.worker with hw | ⟨-, hw⟩
  · exact ⟨hs.line ▸ h.ordered, by rw [hs.line, hw]; exact h.crossed, by rw [hw]; exact h.running⟩
  · refine ⟨hs.line ▸ h.ordered, ?_, ?_⟩
    · intro hc
      exact absurd hc (not_crossed_of_ahead (ahead_of_not_inBatch hw))
    · intro b t ht
      rw [ht] at hw
      cases hw

/-- A step of the worker within a batch, where the line does not cross the tasks. -/
theorem InOrder.works {i j : Nat} {ms c : Int} {s s' : Thread F} {w w' : Worker F}
    (h : s.InOrder i j ms c) (hw : s.Works s' w w') (hl : s'.line.Ordered i j)
    (hc : s'.line.Crossed i j → s.line.Crossed i j) (hr : ∀ b t, w' = .running b t → t.id ≠ j) :
    s'.InOrder i j ms c := by
  refine ⟨hl, ?_, ?_⟩
  · intro hcross
    rw [hw.after, hw.early, ← hw.before]
    exact h.crossed (hc hcross)
  · intro b t ht
    exact hr b t (hw.after.symm.trans ht)

/-- A task that is examined and due is not the later one: the earlier one would be ahead of it,
or wait behind the batch with a time that is not later, and be due as well. -/
theorem InOrder.due_ne {i j : Nat} {ms c : Int} {s : Thread F} {b : Batch} {t : Tuple F}
    (h : s.InOrder i j ms c) (hk : s.Stamped i j ms c) (hw : s.worker = .examine b t)
    (hd : ¬ difftime b.realtime t.ts < t.ms) : t.id ≠ j := by
  intro htj
  have ht : t ∈ s.tuples := mem_tuples_of_hand (by rw [hw]; rfl)
  have hline : s.line = ⟨t.id :: (s.queue.take (b.remaining - 1)).map Tuple.id,
      (s.queue.drop (b.remaining - 1)).map Tuple.id⟩ := line_eq hw
  have hi : i ∈ s.line.ahead.tail ++ s.line.behind := by
    have hpresent := hk.present
    have hti : i ≠ t.id := fun heq => hk.ne (heq.trans htj)
    rw [hline, List.tail_cons, ← List.map_append, List.take_append_drop]
    simpa [tuples, hw, Worker.hand, hti] using hpresent
  rcases List.mem_append.mp hi with hi | hi
  · refine h.ordered.not_mem_tail ?_ hi
    rw [hline, List.head?_cons, htj]
  · have hcross : s.line.Crossed i j := ⟨by rw [hline, htj]; exact List.mem_cons_self, hi⟩
    have hearly := h.crossed hcross
    rw [hw] at hearly
    have hlt : difftime b.realtime c < ms := hearly
    obtain ⟨hms, hts⟩ := hk.second t ht htj
    have hle := difftime_le b.realtime hts
    omega

/-- One step keeps the order, unless the worker's thread has ended the process. -/
theorem InOrder.step {i j : Nat} {ms c : Int} {s s' : Thread F} {a : Action F}
    (h : s.InOrder i j ms c) (hk : s.Stamped i j ms c) (ha : s.Serves a s')
    (hkeep : s.Keeps i j a s') : s'.worker = .terminated ∨ s'.InOrder i j ms c := by
  cases ha with
  | stay hs | begin hs | stage hs => exact .inr (h.still hs)
  | @arrive k _ p ts _ hk' hst hw _ hl =>
    have hki : i ≠ k := by
      rintro rfl
      exact hk.arrived p ts hk' hst
    refine .inr ⟨?_, ?_, ?_⟩
    · rw [hl, Line.ordered_join h.ordered]
      exact fun hik => absurd hik hki
    · rw [hl, Line.crossed_join, hw]
      rintro (hc | ⟨-, hik⟩)
      · exact h.crossed hc
      · exact absurd hik hki
    · rw [hw]
      exact h.running
  | start hw hw' _ hl =>
    refine .inr ⟨?_, ?_, ?_⟩
    · rw [hl]
      exact h.ordered.start (not_crossed_of_ahead (ahead_of_not_inBatch hw))
    · rw [hl]
      exact fun hc => absurd hc Line.not_crossed_start
    · simp [hw']
  | pop hw _ hl | again hw _ _ hl | stamp hw _ hl | retire hw _ hl =>
    exact .inr (h.works hw (hl ▸ h.ordered) (by rw [hl]; exact id) (by simp))
  | early hw _ _ hl | drop hw _ _ hl =>
    refine .inr (h.works hw (hl ▸ h.ordered.take) ?_ (by simp))
    rw [hl]
    exact Line.Crossed.of_take
  | @run _ b _ t _ hw hd _ hl =>
    refine .inr (h.works hw (hl ▸ h.ordered.take) ?_ ?_)
    · rw [hl]
      exact Line.Crossed.of_take
    · rintro _ _ ⟨⟩
      exact h.due_ne hk hw.before hd
  | @requeue _ b _ t _ hw _ hl =>
    have hkeep : t.id = i → j ∉ s.line.behind := by
      simpa [Keeps, hw.before] using hkeep
    have hearly : s.worker.Early ms c → s'.worker.Early ms c := by
      rw [hw.before, hw.after]
      exact (hw.early ms c).mpr
    refine .inr ⟨?_, ?_, by simp [hw.after]⟩
    · rw [hl, Line.ordered_join h.ordered]
      exact fun hti => hkeep hti.symm
    · rw [hl, Line.crossed_join]
      rintro (hc | ⟨-, hti⟩)
      · exact hearly (h.crossed hc)
      · exact hearly (hk.put _ _ hw.before hti.symm)
  | @throw b t e _ hw hw' _ hl =>
    by_cases he : e.isException
    · have hcross : ¬ s.line.Crossed i j := hkeep he
      rw [if_pos he] at hw'
      refine .inr ⟨?_, ?_, by simp [hw']⟩
      · rw [hl, Line.ordered_stop h.ordered]
        exact hcross
      · rw [hl]
        exact fun hc => absurd hc Line.not_crossed_stop
    · rw [if_neg he] at hw'
      exact .inl hw'
  | finish hw hw' _ hl hahead =>
    refine .inr ⟨?_, ?_, ?_⟩
    · rw [hl, Line.ordered_stop h.ordered]
      exact not_crossed_of_ahead hahead
    · rw [hl]
      exact fun hc => absurd hc Line.not_crossed_stop
    · intro b' t' ht
      rw [ht] at hw'
      cases hw'

/-- Only a step of the push itself changes its record. -/
theorem Serves.pushes_same {s s' : Thread F} {a : Action F} (h : s.Serves a s') {i : Nat}
    {p : Push F} (hi : s.pushes i = some p) (ha : ∀ now, a ≠ .push i now) :
    s'.pushes i = some p := by
  have hsame : s'.pushes = s.pushes → s'.pushes i = some p := fun hp => by rw [hp, hi]
  cases h with
  | stay _ hp | start _ _ _ _ _ hp | throw _ _ _ _ _ hp | finish _ _ _ _ _ _ hp => exact hsame hp
  | pop hw | early hw | run hw | drop hw | again hw | stamp hw | requeue hw | retire hw =>
    exact hsame hw.pushes
  | @begin k _ _ _ _ hk hp =>
    have hki : i ≠ k := by
      rintro rfl
      rw [hi] at hk
      cases hk
    rw [hp, Function.update_of_ne hki, hi]
  | @stage k now _ _ _ _ _ _ hp | @arrive k now _ _ _ _ _ _ _ _ _ hp =>
    have hki : i ≠ k := by
      rintro rfl
      exact ha now rfl
    rw [hp, Function.update_of_ne hki, hi]

/-- The record of a push goes through its stages and keeps what it was called with. -/
theorem Serves.pushes_kept {s s' : Thread F} {a : Action F} (h : s.Serves a s') {i : Nat}
    {p : Push F} (hi : s.pushes i = some p) :
    ∃ p', s'.pushes i = some p' ∧ p'.function = p.function ∧ p'.ms = p.ms ∧
      (p.stage = .returned → p'.stage = .returned) ∧
      ∀ ts, p'.stage = .stamped ts → p.stage = .stamped ts ∨ p.stage = .begun ∧ a = .push i ts := by
  by_cases ha : ∃ now, a = .push i now
  · obtain ⟨now, rfl⟩ := ha
    cases h with
    | stay _ hp => exact ⟨p, by rw [hp, hi], rfl, rfl, id, fun _ => .inl⟩
    | @stage _ _ q stage _ _ hk hst hp =>
      obtain rfl := Option.some.inj (hi.symm.trans hk)
      refine ⟨{ p with stage := stage }, by rw [hp, Function.update_self], rfl, rfl, ?_, ?_⟩
      · intro hret
        rcases hst with ⟨hst, -⟩ | ⟨hst, -⟩
        · rw [hret] at hst
          cases hst
        · rw [hret] at hst
          cases hst
      · rintro ts hts
        rcases hst with ⟨hst, rfl⟩ | ⟨-, rfl⟩
        · obtain rfl : now = ts := by simpa using hts
          exact .inr ⟨hst, rfl⟩
        · cases hts
    | arrive hk hst _ _ _ _ hp =>
      obtain rfl := Option.some.inj (hi.symm.trans hk)
      refine ⟨{ p with stage := .queued }, by rw [hp, Function.update_self], rfl, rfl, ?_, ?_⟩
      · intro hret
        rw [hret] at hst
        cases hst
      · rintro ts hts
        cases hts
  · have hsame := h.pushes_same hi fun now hnow => ha ⟨now, hnow⟩
    exact ⟨p, hsame, rfl, rfl, id, fun _ => .inl⟩

/-- A push appears by being called. -/
theorem Serves.pushes_new {s s' : Thread F} {a : Action F} (h : s.Serves a s') {i : Nat}
    {p : Push F} (hi : s.pushes i = none) (hi' : s'.pushes i = some p) :
    a = .pushBegin i p.function p.ms ∧ p.stage = .begun := by
  have hsame : s'.pushes = s.pushes → False := by
    intro hp
    rw [hp, hi] at hi'
    cases hi'
  cases h with
  | stay _ hp | start _ _ _ _ _ hp | throw _ _ _ _ _ hp | finish _ _ _ _ _ _ hp =>
    exact absurd hp hsame
  | pop hw | early hw | run hw | drop hw | again hw | stamp hw | requeue hw | retire hw =>
    exact absurd hw.pushes hsame
  | @begin k _ _ _ _ _ hp =>
    rw [hp] at hi'
    by_cases hki : i = k
    · subst hki
      rw [Function.update_self] at hi'
      obtain rfl := Option.some.inj hi'
      exact ⟨rfl, rfl⟩
    · rw [Function.update_of_ne hki, hi] at hi'
      cases hi'
  | @stage k _ _ _ _ _ hk _ hp | @arrive k _ _ _ _ hk _ _ _ _ _ hp =>
    have hki : i ≠ k := by
      rintro rfl
      rw [hi] at hk
      cases hk
    rw [hp, Function.update_of_ne hki, hi] at hi'
    cases hi'

theorem Still.tuples {s s' : Thread F} (h : s.Still s') : s'.tuples = s.tuples := by
  have hout : ∀ w : Worker F, w.inBatch = false → w.hand = none := by
    intro w hw
    cases w with
    | examine | running | stamp | put => cases hw
    | _ => rfl
  rw [Thread.tuples, Thread.tuples, h.queue]
  rcases h.worker with hw | ⟨hs, hs'⟩
  · rw [hw]
  · rw [hout _ hs, hout _ hs']

theorem Works.tuples {s s' : Thread F} {w w' : Worker F} (h : s.Works s' w w') :
    s.tuples = s.queue ++ w.hand.toList ∧ s'.tuples = s'.queue ++ w'.hand.toList := by
  rw [Thread.tuples, Thread.tuples, h.before, h.after]
  exact ⟨rfl, rfl⟩

/-- Where a task of the queue or in hand comes from. -/
theorem Serves.mem_tuples {s s' : Thread F} {a : Action F} (h : s.Serves a s') {t : Tuple F}
    (ht : t ∈ s'.tuples) :
    t ∈ s.tuples ∨
    (∃ i now p ts, a = .push i now ∧ s.pushes i = some p ∧ p.stage = .stamped ts ∧
      t = ⟨i, p.function, p.ms, true, ts⟩) ∨
    ∃ now b u, a = .worker now ∧ s.worker = .stamp b u ∧ t = { u with ts := now } := by
  cases h with
  | stay hs | begin hs | stage hs => exact .inl (hs.tuples ▸ ht)
  | @arrive i now p ts _ hi hst hw hq =>
    rw [tuples, hq, hw] at ht
    rcases List.mem_append.mp ht with ht | ht
    · rcases List.mem_append.mp ht with ht | ht
      · exact .inl (List.mem_append_left _ ht)
      · exact .inr (.inl ⟨i, now, p, ts, rfl, hi, hst, List.mem_singleton.mp ht⟩)
    · exact .inl (List.mem_append_right _ ht)
  | start hw hw' hq =>
    rw [tuples, hq, hw'] at ht
    refine .inl (List.mem_append_left _ ?_)
    simpa [Worker.hand] using ht
  | pop hw hq | early hw _ hq | run hw _ hq | again hw _ hq | requeue hw hq =>
    refine .inl ?_
    rw [hw.tuples.2] at ht
    rw [hw.tuples.1]
    simpa [hq, Worker.hand, or_comm] using ht
  | drop hw _ hq | retire hw hq =>
    refine .inl ?_
    rw [hw.tuples.2, hq] at ht
    rw [hw.tuples.1]
    exact List.mem_append_left _ (by simpa [Worker.hand] using ht)
  | @stamp now b u _ hw hq =>
    rw [hw.tuples.2, hq] at ht
    rcases List.mem_append.mp ht with ht | ht
    · exact .inl (List.mem_append_left _ ht)
    · exact .inr (.inr ⟨now, b, u, rfl, hw.before, by simpa [Worker.hand] using ht⟩)
  | @throw b u e _ hw hw' hq =>
    refine .inl (List.mem_append_left _ ?_)
    have hnone : s'.worker.hand = none := by
      rw [hw']
      split <;> rfl
    simpa [tuples, hnone, hq] using ht
  | @finish _ b _ hw hw' hq =>
    refine .inl (List.mem_append_left _ ?_)
    have hnone : s'.worker.hand = none := by
      generalize s'.worker = w' at hw'
      cases w' with
      | examine | running | stamp | put => cases hw'
      | _ => rfl
    simpa [tuples, hnone, hq] using ht

/-- A push that has its time had it before, or takes it in this step. -/
theorem Serves.stamped_before {s s' : Thread F} {a : Action F} (h : s.Serves a s') {i : Nat}
    {p' : Push F} {ts : Int} (hi' : s'.pushes i = some p') (hst' : p'.stage = .stamped ts) :
    ∃ p, s.pushes i = some p ∧ (p.stage = .stamped ts ∨ p.stage = .begun ∧ a = .push i ts) := by
  cases hi : s.pushes i with
  | none =>
    rw [(h.pushes_new hi hi').2] at hst'
    cases hst'
  | some p =>
    obtain ⟨q, hq, -, -, -, hstages⟩ := h.pushes_kept hi
    obtain rfl := Option.some.inj (hi'.symm.trans hq)
    exact ⟨p, rfl, hstages ts hst'⟩

/-- The task of push `i` is as it was pushed, and its time is one that `T` allows. -/
structure Carries (i : Nat) (T : Int → Prop) (s : Thread F) : Prop where
  push : ∀ p ts, s.pushes i = some p → p.stage = .stamped ts → T ts
  tuple : ∀ t ∈ s.tuples, t.id = i →
    T t.ts ∧ ∃ p, s.pushes i = some p ∧ p.function = t.function ∧ p.ms = t.ms

/-- It stays so as long as the clock shows such times where the task is stamped. -/
theorem Carries.step {i : Nat} {T : Int → Prop} {s s' : Thread F} {a : Action F}
    (h : s.Carries i T) (ha : s.Serves a s')
    (hpush : ∀ now p, a = .push i now → s.pushes i = some p → p.stage = .begun → T now)
    (hstamp : ∀ now b t, a = .worker now → s.worker = .stamp b t → t.id = i → T now) :
    s'.Carries i T := by
  refine ⟨?_, ?_⟩
  · intro p' ts hi' hst'
    obtain ⟨p, hi, hst | ⟨hst, rfl⟩⟩ := ha.stamped_before hi' hst'
    · exact h.push p ts hi hst
    · exact hpush ts p rfl hi hst
  · intro t ht hti
    rcases ha.mem_tuples ht with ht | ⟨k, now, p, ts, rfl, hk, hst, rfl⟩ |
        ⟨now, b, u, rfl, hw, rfl⟩
    · obtain ⟨hT, p, hp, hf, hms⟩ := h.tuple t ht hti
      obtain ⟨p', hp', hf', hms', -⟩ := ha.pushes_kept hp
      exact ⟨hT, p', hp', hf'.trans hf, hms'.trans hms⟩
    · obtain rfl : k = i := hti
      obtain ⟨p', hp', hf', hms', -⟩ := ha.pushes_kept hk
      exact ⟨h.push p ts hk hst, p', hp', hf', hms'⟩
    · have hu : u ∈ s.tuples := mem_tuples_of_hand (by rw [hw]; rfl)
      obtain ⟨-, p, hp, hf, hms⟩ := h.tuple u hu hti
      obtain ⟨p', hp', hf', hms', -⟩ := ha.pushes_kept hp
      exact ⟨hstamp now b u rfl hw hti, p', hp', hf'.trans hf, hms'.trans hms⟩

/-- Why the worker stamps a task anew, and why it puts one back. -/
structure Handled (s : Thread F) : Prop where
  stamp : ∀ b t, s.worker = .stamp b t → t.function.allows (.returns .CONTINUE)
  put : ∀ b t, s.worker = .put b t → t.function.allows (.returns .CONTINUE) ∨
    difftime b.realtime t.ts < t.ms

theorem Handled.still {s s' : Thread F} (h : s.Handled) (hs : s.Still s') : s'.Handled := by
  rcases hs.worker with hw | ⟨-, hw⟩
  · exact ⟨by rw [hw]; exact h.stamp, by rw [hw]; exact h.put⟩
  · refine ⟨?_, ?_⟩
    · intro b t ht
      rw [ht] at hw
      cases hw
    · intro b t ht
      rw [ht] at hw
      cases hw

theorem Handled.step {s s' : Thread F} {a : Action F} (h : s.Handled) (ha : s.Serves a s') :
    s'.Handled := by
  cases ha with
  | stay hs | begin hs | stage hs => exact h.still hs
  | arrive _ _ hw => exact ⟨by rw [hw]; exact h.stamp, by rw [hw]; exact h.put⟩
  | start _ hw' => exact ⟨by simp [hw'], by simp [hw']⟩
  | pop hw | run hw | drop hw | requeue hw | retire hw =>
    exact ⟨by simp [hw.after], by simp [hw.after]⟩
  | early hw hd =>
    refine ⟨by simp [hw.after], ?_⟩
    intro b t ht
    obtain ⟨rfl, rfl⟩ := Worker.put.inj (hw.after.symm.trans ht)
    exact .inr ((hw.early _ _).mpr hd)
  | again hw hf =>
    refine ⟨?_, by simp [hw.after]⟩
    intro b t ht
    obtain ⟨rfl, rfl⟩ := Worker.stamp.inj (hw.after.symm.trans ht)
    exact hf
  | @stamp _ b u _ hw =>
    refine ⟨by simp [hw.after], ?_⟩
    intro b' t ht
    obtain ⟨rfl, rfl⟩ := Worker.put.inj (hw.after.symm.trans ht)
    exact .inl (h.stamp b u hw.before)
  | throw _ hw' =>
    refine ⟨?_, ?_⟩ <;>
    · intro b t ht
      rw [hw'] at ht
      split at ht <;> cases ht
  | finish _ hw' =>
    refine ⟨?_, ?_⟩ <;>
    · intro b t ht
      rw [ht] at hw'
      cases hw'

/-- The clock at the time of the action, where it may be read. -/
def Action.now : Action F → Option Int
  | .push _ now | .worker now => some now
  | _ => none

/-- The second push has been called, after the first had returned at `c` of the clock. -/
structure Posted (i j : Nat) (ms c : Int) (s : Thread F) : Prop where
  ne : i ≠ j
  fits : s.Fits
  count : ∀ k, s.places.count k = (s.entered k).toNat
  handled : s.Handled
  first : ∃ func, s.pushes i = some ⟨.postTask func, ms, .returned⟩
  second : ∃ p, s.pushes j = some p ∧ p.ms = ms
  carriesFirst : s.Carries i (· ≤ c)
  carriesSecond : s.Carries j (c ≤ ·)

theorem Posted.not_again {i j : Nat} {ms c : Int} {s : Thread F} (h : s.Posted i j ms c)
    {t : Tuple F} (ht : t ∈ s.tuples) (hti : t.id = i) :
    t.ms = ms ∧ t.function.allows (.returns .CONTINUE) = false := by
  obtain ⟨func, hfirst⟩ := h.first
  obtain ⟨-, p, hp, hf, hms⟩ := h.carriesFirst.tuple t ht hti
  obtain rfl := Option.some.inj (hfirst.symm.trans hp)
  exact ⟨hms.symm, by rw [← hf]; rfl⟩

/-- What the order of the two tasks rests on, while the first has not been retired. -/
theorem Posted.stamped {i j : Nat} {ms c : Int} {s : Thread F} (h : s.Posted i j ms c)
    (hi : i ∉ s.retired) : s.Stamped i j ms c := by
  obtain ⟨func, hfirst⟩ := h.first
  refine ⟨h.ne, ?_, ?_, ?_, ?_⟩
  · have hcount := h.count i
    have hentered : s.entered i = true := by simp [entered, hfirst, Push.entered]
    rw [places, List.count_append, List.count_eq_zero_of_not_mem hi, hentered] at hcount
    exact List.count_pos_iff.mp (by rw [Bool.toNat_true] at hcount; omega)
  · intro p ts hp hst
    obtain rfl := Option.some.inj (hfirst.symm.trans hp)
    cases hst
  · intro b t hw hti
    have ht : t ∈ s.tuples := mem_tuples_of_hand (by rw [hw]; rfl)
    obtain ⟨hms, hagain⟩ := h.not_again ht hti
    have hts := (h.carriesFirst.tuple t ht hti).1
    have hle := difftime_le b.realtime hts
    rw [hw]
    show difftime b.realtime c < ms
    rcases h.handled.put b t hw with hcont | hd
    · rw [hagain] at hcont
      cases hcont
    · omega
  · intro t ht htj
    obtain ⟨hts, p, hp, -, hms⟩ := h.carriesSecond.tuple t ht htj
    obtain ⟨q, hq, hqms⟩ := h.second
    obtain rfl := Option.some.inj (hp.symm.trans hq)
    exact ⟨hms.symm.trans hqms, hts⟩

theorem Posted.step {i j : Nat} {ms c : Int} {s s' : Thread F} {a : Action F}
    (h : s.Posted i j ms c) (hs : Thread.step s a = some s')
    (hclock : ∀ now, a.now = some now → c ≤ now) : s'.Posted i j ms c := by
  have ha := step_serves h.fits hs
  obtain ⟨func, hfirst⟩ := h.first
  refine ⟨h.ne, (step_progress h.fits hs).2, ?_, h.handled.step ha, ?_, ?_, ?_, ?_⟩
  · intro k
    have hmove := (step_moves hs).count_places k
    have hcount := h.count k
    omega
  · obtain ⟨⟨f, m, st⟩, hp', hf, hms, hret, -⟩ := ha.pushes_kept hfirst
    obtain rfl : st = .returned := hret rfl
    obtain rfl : f = .postTask func := hf
    obtain rfl : m = ms := hms
    exact ⟨func, hp'⟩
  · obtain ⟨p, hp, hms⟩ := h.second
    obtain ⟨p', hp', -, hms', -⟩ := ha.pushes_kept hp
    exact ⟨p', hp', hms'.trans hms⟩
  · refine h.carriesFirst.step ha ?_ ?_
    · intro now p _ hp hst
      obtain rfl := Option.some.inj (hfirst.symm.trans hp)
      cases hst
    · -- a one-shot task is never stamped anew
      intro now b t _ hw hti
      have hagain := (h.not_again (mem_tuples_of_hand (by rw [hw]; rfl)) hti).2
      rw [h.handled.stamp b t hw] at hagain
      cases hagain
  · refine h.carriesSecond.step ha ?_ ?_
    · rintro now p rfl _ _
      exact hclock now rfl
    · rintro now b t rfl _ _
      exact hclock now rfl

def ClockNonDecreasing (acts : List (Action F)) : Prop :=
  (acts.filterMap Action.now).Pairwise (· ≤ ·)

private theorem exists_between {l r : List Int} (h : (l ++ r).Pairwise (· ≤ ·)) :
    ∃ c, (∀ x ∈ l, x ≤ c) ∧ ∀ y ∈ r, c ≤ y := by
  obtain ⟨hl, hr, hlr⟩ := List.pairwise_append.mp h
  cases r with
  | cons y r =>
    refine ⟨y, fun x hx => hlr x hx y List.mem_cons_self, ?_⟩
    intro z hz
    rcases List.mem_cons.mp hz with rfl | hz
    · exact Int.le_refl z
    · exact List.rel_of_pairwise_cons hr hz
  | nil =>
    rcases List.eq_nil_or_concat' l with rfl | ⟨l, y, rfl⟩
    · exact ⟨0, by simp, by simp⟩
    · refine ⟨y, ?_, by simp⟩
      intro x hx
      rcases List.mem_append.mp hx with hx | hx
      · exact (List.pairwise_append.mp hl).2.2 x hx y (by simp)
      · exact Int.le_of_eq (List.mem_singleton.mp hx)

/-- All tasks of a run carry times that its clock has shown. -/
theorem carries_of_run {acts : List (Action F)} {s : Thread F} {T : Int → Prop} (i : Nat)
    (hrun : step.run init acts = some s) (hT : ∀ now ∈ acts.filterMap Action.now, T now) :
    s.Handled ∧ s.Carries i T := by
  have hinit : (init : Thread F).Fits ∧ (init : Thread F).Handled ∧
      (init : Thread F).Carries i T := by
    refine ⟨trivial, ⟨by simp [init], by simp [init]⟩, ⟨by simp [init], ?_⟩⟩
    simp [tuples, init, Worker.hand]
  refine (Machine.run_history (I := fun _ s => s.Fits ∧ s.Handled ∧ s.Carries i T)
    (P := fun a => ∀ now, a.now = some now → T now) ?_ hinit ?_ hrun).2
  · rintro _ u a v ⟨hfits, hhandled, hcarries⟩ ha hs
    have hserves := step_serves hfits hs
    refine ⟨(step_progress hfits hs).2, hhandled.step hserves, hcarries.step hserves ?_ ?_⟩
    · rintro now p rfl _ _
      exact ha now rfl
    · rintro now b t rfl _ _
      exact ha now rfl
  · intro a ha now hnow
    exact hT now (List.mem_filterMap.mpr ⟨a, ha, hnow⟩)

theorem pushes_kept_of_run {acts : List (Action F)} {s s' : Thread F} {i : Nat} {p : Push F}
    (hi : s.pushes i = some p) (hrun : step.run s acts = some s') :
    ∃ p', s'.pushes i = some p' ∧ p'.function = p.function := by
  refine Machine.run_invariant
    (I := fun u : Thread F => ∃ p', u.pushes i = some p' ∧ p'.function = p.function)
    ?_ ⟨p, hi, rfl⟩ hrun
  rintro u a v ⟨q, hq, hf⟩ hs
  obtain ⟨q', hq', hf'⟩ := (step_moves hs).pushes_kept hq
  exact ⟨q', hq', hf'.trans hf⟩

theorem Moves.retired_subset {s s' : Thread F} {a : Action F} (h : s.Moves a s') {i : Nat}
    (hi : i ∈ s.retired) : i ∈ s'.retired := by
  cases h with
  | keep _ _ _ hr | begin _ _ _ hr | restage _ _ _ _ hr | enter _ _ _ _ hr | take _ _ _ hr
  | stamp _ _ _ hr | requeue _ _ _ hr | again _ _ _ _ hr =>
    rw [hr]
    exact hi
  | drop _ _ _ _ hr | retire _ _ _ _ _ hr =>
    rw [hr]
    exact List.mem_append_left _ hi

/-- A task is retired by a run, unless its functor is empty. -/
theorem ran_of_retired {acts : List (Action F)} {s : Thread F}
    (hrun : step.run init acts = some s) :
    s.TuplesKnown ∧ ∀ i ∈ s.retired, (∃ o, .functorEnds i o ∈ acts) ∨
      ∃ p, s.pushes i = some p ∧ p.function = .empty := by
  refine Machine.run_history (P := fun _ => True)
    (I := fun as s => s.TuplesKnown ∧ ∀ i ∈ s.retired, (∃ o, Action.functorEnds i o ∈ as) ∨
      ∃ p, s.pushes i = some p ∧ p.function = .empty) ?_ ?_ (fun _ _ => trivial) hrun
  · rintro as u a v ⟨hknown, hret⟩ - hs
    have hmoves := step_moves hs
    refine ⟨hmoves.tuplesKnown hknown, ?_⟩
    have hkeep : ∀ i ∈ u.retired, (∃ o, Action.functorEnds i o ∈ as ++ [a]) ∨
        ∃ p, v.pushes i = some p ∧ p.function = .empty := by
      intro i hi
      rcases hret i hi with ⟨o, ho⟩ | ⟨p, hp, hf⟩
      · exact .inl ⟨o, List.mem_append_left _ ho⟩
      · obtain ⟨p', hp', hf'⟩ := hmoves.pushes_kept hp
        exact .inr ⟨p', hp', hf'.trans hf⟩
    intro i hi
    cases hmoves with
    | keep _ _ _ hr | begin _ _ _ hr | restage _ _ _ _ hr | enter _ _ _ _ hr | take _ _ _ hr
    | stamp _ _ _ hr | requeue _ _ _ hr | again _ _ _ _ hr => exact hkeep i (hr ▸ hi)
    | @drop _ t _ hs' hf _ _ hr hp =>
      rw [hr] at hi
      rcases List.mem_append.mp hi with hi | hi
      · exact hkeep i hi
      · obtain rfl := List.mem_singleton.mp hi
        obtain ⟨_, p, hpt, hpf⟩ := hknown t (mem_tuples_of_hand hs')
        exact .inr ⟨p, by rw [hp, hpt], hpf.trans hf⟩
    | @retire t o _ _ _ _ _ _ hr =>
      rw [hr] at hi
      rcases List.mem_append.mp hi with hi | hi
      · exact hkeep i hi
      · obtain rfl := List.mem_singleton.mp hi
        exact .inl ⟨o, by simp⟩
  · exact ⟨by simp [TuplesKnown, tuples, init, Worker.hand], by simp [init]⟩

/-- Two tasks are posted with one delay, the second after the first push has returned. -/
def PostedInTurn (i j : Nat) (ms : Int) (acts : List (Action F)) : Prop :=
  ∃ (before after : List (Action F)) (u : Thread F) (func func' : F),
    acts = before ++ .pushBegin j (.postTask func') ms :: after ∧
    step.run init before = some u ∧ u.pushes i = some ⟨.postTask func, ms, .returned⟩

/-- A run of the second task comes after a run of the first. -/
def RunsInOrder (i j : Nat) (acts : List (Action F)) : Prop :=
  ∀ pre o post, acts = pre ++ .functorEnds j o :: post → ∃ o', .functorEnds i o' ∈ pre

/-- While every step keeps the order, the first task is retired before the second runs. -/
theorem Posted.run {i j : Nat} {ms c : Int} {s t : Thread F} {acts : List (Action F)}
    (h : s.Posted i j ms c)
    (hs : i ∈ s.retired ∨ s.worker = .terminated ∨ s.InOrder i j ms c)
    (hclock : ∀ now ∈ acts.filterMap Action.now, c ≤ now)
    (hkeeps : Thread.step.Along (Keeps i j) s acts) (hrun : Thread.step.run s acts = some t) :
    i ∈ t.retired ∨ t.worker = .terminated ∨ t.InOrder i j ms c := by
  induction acts generalizing s with
  | nil =>
    obtain rfl : s = t := by simpa using hrun
    exact hs
  | cons a acts ih =>
    obtain ⟨u, hu, hrun⟩ := Machine.run_cons_eq_some.mp hrun
    obtain ⟨hkeep, hkeeps⟩ := hkeeps u hu
    have hnow : ∀ now, a.now = some now → c ≤ now := by
      intro now ha
      exact hclock now (List.mem_filterMap.mpr ⟨a, List.mem_cons_self, ha⟩)
    have hrest : ∀ now ∈ acts.filterMap Action.now, c ≤ now := by
      intro now hm
      obtain ⟨b, hb, hnow⟩ := List.mem_filterMap.mp hm
      exact hclock now (List.mem_filterMap.mpr ⟨b, List.mem_cons_of_mem a hb, hnow⟩)
    refine ih (h.step hu hnow) ?_ hrest hkeeps hrun
    have hserves := step_serves h.fits hu
    rcases hs with hret | hterm | horder
    · exact .inl ((step_moves hu).retired_subset hret)
    · have hdead : s.dead = true := by simp [dead, hterm]
      simp [Thread.step, hdead] at hu
    · by_cases hret : i ∈ s.retired
      · exact .inl ((step_moves hu).retired_subset hret)
      · exact .inr (horder.step (h.stamped hret) hserves hkeep)

/-- The state right after the second push has been called. -/
theorem posted_of_begin {before : List (Action F)} {u v : Thread F} {i j : Nat} {ms c : Int}
    {func func' : F} (hrun : step.run init before = some u)
    (hfirst : u.pushes i = some ⟨.postTask func, ms, .returned⟩)
    (hstep : step u (.pushBegin j (.postTask func') ms) = some v)
    (hclock : ∀ now ∈ before.filterMap Action.now, now ≤ c) :
    v.Posted i j ms c ∧ (i ∈ v.retired ∨ v.worker = .terminated ∨ v.InOrder i j ms c) := by
  obtain ⟨hj, rfl⟩ := eq_of_begin hstep
  have hne : i ≠ j := by
    rintro rfl
    rw [hfirst] at hj
    cases hj
  -- no task of the second push is anywhere yet
  have habsent : ∀ t ∈ u.tuples, t.id ≠ j := by
    rintro t ht rfl
    obtain ⟨-, p, hp, -⟩ := (ran_of_retired hrun).1 t ht
    rw [hj] at hp
    cases hp
  obtain ⟨hhandled, hcarries⟩ := carries_of_run i hrun hclock
  have hserves := step_serves (fits hrun) hstep
  have hrun' : step.run init (before ++ [.pushBegin j (.postTask func') ms]) = some _ :=
    Machine.run_concat_eq_some.mpr ⟨u, hrun, hstep⟩
  refine ⟨⟨hne, fits hrun', count_places hrun', hhandled.step hserves, ?_, ?_, ?_, ?_⟩, ?_⟩
  · exact ⟨func, (Function.update_of_ne hne ..).trans hfirst⟩
  · exact ⟨_, Function.update_self .., rfl⟩
  · exact hcarries.step hserves (fun _ _ h => by cases h) (fun _ _ _ h => by cases h)
  · refine ⟨?_, ?_⟩
    · intro p ts hp hst
      have hp : some (⟨.postTask func', ms, .begun⟩ : Push F) = some p :=
        (Function.update_self j _ u.pushes).symm.trans hp
      obtain rfl := Option.some.inj hp
      cases hst
    · intro t ht htj
      exact absurd htj (habsent t ht)
  · have hline : j ∉ u.line.ahead ++ u.line.behind := by
      intro hmem
      obtain ⟨t, ht, htj⟩ := List.mem_map.mp (mem_tuples_of_mem_line hmem)
      exact habsent t ht htj
    refine .inr (.inr ⟨Line.ordered_of_not_mem ?_ ?_, ?_, ?_⟩)
    · exact fun hmem => hline (List.mem_append_left _ hmem)
    · exact fun hmem => hline (List.mem_append_right _ hmem)
    · rintro ⟨hmem, -⟩
      exact absurd (List.mem_append_left _ hmem) hline
    · intro b t hw
      exact habsent t (mem_tuples_of_hand (by rw [show u.worker = .running b t from hw]; rfl))

/-- Of two tasks posted with one delay, the first push returning before the second is called,
the first is run first, in every run with a clock that does not go back whose steps all keep
the order: a first task that is not yet due goes back before the second waits behind the batch,
and no exception ends a batch between the two. -/
theorem runs_in_order {acts : List (Action F)} {s : Thread F} {i j : Nat} {ms : Int}
    (hrun : step.run init acts = some s) (hclock : ClockNonDecreasing acts)
    (hposted : PostedInTurn i j ms acts) (hkeeps : step.Along (Keeps i j) init acts) :
    RunsInOrder i j acts := by
  obtain ⟨before, after, u, func, func', rfl, hbefore, hfirst⟩ := hposted
  rintro pre o post hsplit
  have hrun' := hrun
  rw [hsplit, Machine.run_append, Option.bind_eq_some_iff] at hrun'
  obtain ⟨w, hpre, hpost⟩ := hrun'
  obtain ⟨w', hend, -⟩ := Machine.run_cons_eq_some.mp hpost
  obtain ⟨b, t, hw, htj⟩ := (functorEnds_cases (act_of_step hend)).running
  have ht : t ∈ w.tuples := mem_tuples_of_hand (by rw [hw]; rfl)
  rw [Machine.run_append, hbefore] at hrun
  obtain ⟨v, hbegin, hafter⟩ := Machine.run_cons_eq_some.mp hrun
  rcases List.append_eq_append_iff.mp hsplit with ⟨mid, rfl, hmid⟩ | ⟨mid, rfl, hmid⟩
  · cases mid with
    | nil => cases hmid
    | cons a mid =>
      obtain ⟨rfl, rfl⟩ := List.cons.inj hmid
      -- the second functor runs after its push: the order of the two gives what is claimed
      rw [ClockNonDecreasing, List.filterMap_append] at hclock
      obtain ⟨c, hc, hc'⟩ := exists_between hclock
      obtain ⟨hv, horder⟩ := posted_of_begin hbefore hfirst hbegin hc
      have hmidrun : step.run v mid = some w := by
        rw [Machine.run_append, hbefore] at hpre
        obtain ⟨v', hv', hmidrun⟩ := Machine.run_cons_eq_some.mp hpre
        obtain rfl := Option.some.inj (hbegin.symm.trans hv')
        exact hmidrun
      have hkeeps' : step.Along (Keeps i j) v mid :=
        (Machine.along_append.mp (((Machine.along_append.mp hkeeps).2 u hbefore) v hbegin).2).1
      have hmidclock : ∀ now ∈ mid.filterMap Action.now, c ≤ now := by
        intro now hnow
        obtain ⟨a, ha, hnow⟩ := List.mem_filterMap.mp hnow
        exact hc' now (List.mem_filterMap.mpr
          ⟨a, List.mem_cons_of_mem _ (List.mem_append_left _ ha), hnow⟩)
      have hret : i ∈ w.retired := by
        rcases hv.run horder hmidclock hkeeps' hmidrun with hret | hterm | hin
        · exact hret
        · rw [hw] at hterm
          cases hterm
        · exact absurd htj (hin.running b t hw)
      rcases (ran_of_retired hpre).2 i hret with hran | ⟨p, hp, hempty⟩
      · exact hran
      · obtain ⟨q, hq, hf⟩ := pushes_kept_of_run hfirst
          (Machine.run_cons_eq_some.mpr ⟨v, hbegin, hmidrun⟩)
        obtain rfl := Option.some.inj (hp.symm.trans hq)
        rw [hempty] at hf
        cases hf
  · -- the second functor cannot run before its push is called
    obtain ⟨-, p, hp, -⟩ := (ran_of_retired hpre).1 t ht
    rw [Machine.run_append, hpre] at hbefore
    obtain ⟨q, hq, -⟩ := pushes_kept_of_run (htj ▸ hp) hbefore
    have hnone := (eq_of_begin hbegin).1
    rw [hq] at hnone
    cases hnone

/-- A push with delay 0 from its call to its return, all at one time. -/
def postOnce (i : Nat) (now : Int) : List (Action Unit) :=
  [.pushBegin i (.postTask ()) 0, .push i now, .push i now, .push i now]

/-- Two tasks that one batch runs. -/
def bothInOneBatch : List (Action Unit) :=
  postOnce 0 1 ++ postOnce 1 2 ++
    [.worker 3, .worker 3, .worker 3, .worker 3, .functorEnds 0 (.returns .FINISH),
      .worker 3, .worker 3, .functorEnds 1 (.returns .FINISH)]

theorem runs_in_order_bothInOneBatch :
    ∃ s, step.run init bothInOneBatch = some s ∧ ClockNonDecreasing bothInOneBatch ∧
      PostedInTurn 0 1 0 bothInOneBatch ∧ step.Along (Keeps 0 1) init bothInOneBatch ∧
      RunsInOrder 0 1 bothInOneBatch := by
  have hrun : step.run init bothInOneBatch = some _ := rfl
  have hclock : ClockNonDecreasing bothInOneBatch := by unfold ClockNonDecreasing; decide
  have hposted : PostedInTurn 0 1 0 bothInOneBatch :=
    ⟨postOnce 0 1, _, _, (), (), rfl, rfl, rfl⟩
  have hkeeps : step.Along (Keeps 0 1) init bothInOneBatch := by decide
  exact ⟨_, hrun, hclock, hposted, hkeeps, runs_in_order hrun hclock hposted hkeeps⟩

/-- The worker reads the clock and sleeps on an empty queue. The task that wakes it two
milliseconds later is not due for that reading and goes back, behind the second. -/
def overtaken : List (Action Unit) :=
  [.worker 0, .worker 0] ++ postOnce 0 2000000 ++
    [.worker 2000000, .worker 2000000, .worker 2000000,
      .pushBegin 1 (.postTask ()) 0, .push 1 2000000, .push 1 2000000, .worker 2000000,
      .push 1 2000000] ++
    List.replicate 4 (.worker 2000000) ++ List.replicate 9 .timer ++
    List.replicate 7 (.worker 4000000)

/-- In the next batch both are due, and the second is run first. -/
def secondFirst : List (Action Unit) :=
  overtaken ++ .functorEnds 1 (.returns .FINISH) ::
    [.worker 4000000, .worker 4000000, .functorEnds 0 (.returns .FINISH)]

theorem second_runs_first : ¬ ∀ (acts : List (Action Unit)) (s : Thread Unit) (i j : Nat)
    (ms : Int), step.run init acts = some s → ClockNonDecreasing acts →
      PostedInTurn i j ms acts → (∃ o, .functorEnds i o ∈ acts) →
      (∃ o, .functorEnds j o ∈ acts) → RunsInOrder i j acts := by
  intro h
  have hrun : step.run init secondFirst = some _ := rfl
  have hclock : ClockNonDecreasing secondFirst := by unfold ClockNonDecreasing; decide
  have hposted : PostedInTurn 0 1 0 secondFirst :=
    ⟨[.worker 0, .worker 0] ++ postOnce 0 2000000 ++
      [.worker 2000000, .worker 2000000, .worker 2000000], _, _, (), (), rfl, rfl, rfl⟩
  obtain ⟨o, ho⟩ := h _ _ 0 1 0 hrun hclock hposted ⟨.returns .FINISH, by simp [secondFirst]⟩
    ⟨.returns .FINISH, by simp [secondFirst]⟩ overtaken _ _ rfl
  simp [overtaken, postOnce] at ho

end Thread

end FHT.Task
