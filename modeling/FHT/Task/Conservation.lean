import Mathlib.Data.List.Nodup
import FHT.Task.Steps

/-!
# No task is lost or doubled

Every pushed task is in the queue, in the worker's hand or retired, in exactly one of them.
`Moves` says what a step does to these places; the invariants below are read off from it.

## Main results

- `Thread.step_moves` — every step is one of the moves
- `Thread.count_places` — a task that was queued is in exactly one place, once
- `Thread.conservation` — and it is retired only by a last run
-/

namespace FHT.Task

variable {F : Type*}

/-- The task between `getTask` and its requeueing or retirement. -/
def Worker.hand : Worker F → Option (Tuple F)
  | .examine _ t | .running _ t | .stamp _ t | .put _ t => some t
  | _ => none

/-- Whether the worker is in the functor of task `i`. -/
def Worker.isRunning (i : Nat) : Worker F → Bool
  | .running _ t => t.id = i
  | _ => false

namespace Thread

/-- Whether the task of push `i` has been queued. -/
def entered (s : Thread F) (i : Nat) : Bool := (s.pushes i).any Push.entered

/-- All tasks in the queue or in the worker's hand. -/
def tuples (s : Thread F) : List (Tuple F) := s.queue ++ s.worker.hand.toList

/-- The ids of all tasks, wherever they are. -/
def places (s : Thread F) : List Nat := s.tuples.map Tuple.id ++ s.retired

theorem count_places_eq (s : Thread F) (i : Nat) :
    s.places.count i = (s.queue.map Tuple.id).count i +
      (s.worker.hand.toList.map Tuple.id).count i + s.retired.count i := by
  simp [places, tuples, List.count_append, Nat.add_assoc]

/-- What a step does to the tasks. `restage` is any step of a push but the one that queues its
task, `enter`; the other moves are the worker's. -/
inductive Moves (s : Thread F) : Action F → Thread F → Prop
  | keep {a s'} (ha : ∀ i o, a ≠ .functorEnds i o) (hq : s'.queue = s.queue)
      (hh : s'.worker.hand = s.worker.hand) (hr : s'.retired = s.retired)
      (hp : s'.pushes = s.pushes) : Moves s a s'
  | begin {i function ms s'} (hi : s.pushes i = none) (hq : s'.queue = s.queue)
      (hh : s'.worker.hand = s.worker.hand) (hr : s'.retired = s.retired)
      (hp : s'.pushes = Function.update s.pushes i (some ⟨function, ms, .begun⟩)) :
      Moves s (.pushBegin i function ms) s'
  | restage {i now p stage s'} (hi : s.pushes i = some p)
      (he : ({ p with stage := stage } : Push F).entered = p.entered) (hq : s'.queue = s.queue)
      (hh : s'.worker.hand = s.worker.hand) (hr : s'.retired = s.retired)
      (hp : s'.pushes = Function.update s.pushes i (some { p with stage := stage })) :
      Moves s (.push i now) s'
  | enter {i now p ts s'} (hi : s.pushes i = some p) (he : p.entered = false)
      (hq : s'.queue = s.queue ++ [⟨i, p.function, p.ms, true, ts⟩])
      (hh : s'.worker.hand = s.worker.hand) (hr : s'.retired = s.retired)
      (hp : s'.pushes = Function.update s.pushes i (some { p with stage := .queued })) :
      Moves s (.push i now) s'
  | take {now t s'} (hs : s.worker.hand = none) (hq : s.queue = t :: s'.queue)
      (hh : s'.worker.hand = some t) (hr : s'.retired = s.retired) (hp : s'.pushes = s.pushes) :
      Moves s (.worker now) s'
  | stamp {now t ts s'} (hs : s.worker.hand = some t) (hq : s'.queue = s.queue)
      (hh : s'.worker.hand = some { t with ts := ts }) (hr : s'.retired = s.retired)
      (hp : s'.pushes = s.pushes) : Moves s (.worker now) s'
  | requeue {now t s'} (hs : s.worker.hand = some t) (hq : s'.queue = s.queue ++ [t])
      (hh : s'.worker.hand = none) (hr : s'.retired = s.retired) (hp : s'.pushes = s.pushes) :
      Moves s (.worker now) s'
  | drop {now t s'} (hs : s.worker.hand = some t) (hf : t.function = .empty)
      (hq : s'.queue = s.queue) (hh : s'.worker.hand = none)
      (hr : s'.retired = s.retired ++ [t.id]) (hp : s'.pushes = s.pushes) :
      Moves s (.worker now) s'
  | again {t s'} (hs : s.worker.hand = some t) (hf : t.function.allows (.returns .CONTINUE))
      (hq : s'.queue = s.queue) (hh : s'.worker.hand = some t) (hr : s'.retired = s.retired)
      (hp : s'.pushes = s.pushes) : Moves s (.functorEnds t.id (.returns .CONTINUE)) s'
  | retire {t o s'} (hs : s.worker.hand = some t) (hf : t.function.allows o)
      (ho : o.isLast ∨ t.isLoop = false) (hq : s'.queue = s.queue)
      (hh : s'.worker.hand = none) (hr : s'.retired = s.retired ++ [t.id])
      (hp : s'.pushes = s.pushes) : Moves s (.functorEnds t.id o) s'

@[simp] theorem notifyOne_hand (s : Thread F) : s.notifyOne.worker.hand = s.worker.hand := by
  rw [notifyOne]
  cases s.worker <;> rfl

theorem hand_of_worker {s : Thread F} {w : Worker F} (hw : s.worker = w) :
    s.worker.hand = w.hand := by
  rw [hw]

private theorem pushStep_moves {s s' : Thread F} {i : Nat} {now : Int}
    (h : s.pushStep i now = some s') : s.Moves (.push i now) s' := by
  cases pushStep_cases h with
  | stamp hi hst => exact .restage hi (by simp [Push.entered, hst]) rfl rfl rfl rfl
  | enqueue hi hst => exact .enter hi (by simp [Push.entered, hst]) rfl rfl rfl rfl
  | notify hi hst =>
    exact .restage hi (by simp [Push.entered, hst]) rfl (notifyOne_hand _) rfl rfl

private theorem workerStep_moves {s s' : Thread F} {now : Int}
    (h : s.workerStep now = some s') : s.Moves (.worker now) s' := by
  have ha : ∀ i o, Action.worker (F := F) now ≠ .functorEnds i o := by simp
  cases workerStep_cases h with
  | head hw | closing hw | retWait hw =>
    refine .keep ha rfl ?_ rfl rfl
    rw [hand_of_worker hw]
    dsimp only
    split <;> rfl
  | sleep hw | count hw | finish hw | fault hw | isWait hw | relock hw | early hw | run hw =>
    exact .keep ha rfl (hand_of_worker hw).symm rfl rfl
  | pop hw _ hq => exact .take (hand_of_worker hw) hq rfl rfl rfl
  | drop hw _ hf => exact .drop (hand_of_worker hw) hf rfl rfl rfl rfl
  | stamp hw => exact .stamp (hand_of_worker hw) rfl rfl rfl rfl
  | put hw => exact .requeue (hand_of_worker hw) rfl rfl rfl rfl

private theorem functorEnds_moves {s s' : Thread F} {i : Nat} {o : Outcome}
    (h : s.functorEnds i o = some s') : s.Moves (.functorEnds i o) s' := by
  cases functorEnds_cases h with
  | again hw hf => exact .again (hand_of_worker hw) hf rfl rfl rfl rfl
  | retire hw hf hl =>
    refine .retire (hand_of_worker hw) hf (hl.imp_left ?_) rfl rfl rfl rfl
    rintro rfl
    rfl
  | throw hw hf =>
    refine .retire (hand_of_worker hw) hf (.inl rfl) rfl ?_ rfl rfl
    dsimp only
    split <;> rfl

private theorem Idle.moves {s s' : Thread F} {a : Action F} (h : s.Idle s')
    (ha : ∀ i o, a ≠ .functorEnds i o) : s.Moves a s' := by
  refine .keep ha h.queue ?_ h.retired h.pushes
  rcases h.worker with hw | hw
  · rw [hw]
  · rw [hw, notifyOne_hand]

/-- Every step is one of the moves. -/
theorem step_moves {s s' : Thread F} {a : Action F} (h : step s a = some s') :
    s.Moves a s' := by
  have h := act_of_step h
  cases a with
  | pushBegin i function ms =>
    obtain ⟨hi, rfl⟩ := pushBegin_eq_some h
    exact .begin hi rfl rfl rfl rfl
  | push i now => exact pushStep_moves h
  | worker now => exact workerStep_moves h
  | functorEnds i o => exact functorEnds_moves h
  | timer => exact (timerStep_idle h).moves (by simp)
  | destructor => exact (destructorStep_idle h).moves (by simp)
  | spurious => exact (spurious_idle h).moves (by simp)

/-- What a step does to the record of one push. -/
theorem Moves.pushes_cases {s s' : Thread F} {a : Action F} (h : s.Moves a s') (i : Nat) :
    s'.pushes i = s.pushes i ∨
    (∃ p p', s.pushes i = some p ∧ s'.pushes i = some p' ∧ p'.function = p.function) ∨
    ∃ function ms, s.pushes i = none ∧ a = .pushBegin i function ms ∧
      s'.pushes i = some ⟨function, ms, .begun⟩ := by
  cases h with
  | keep _ _ _ _ hp | take _ _ _ _ hp | stamp _ _ _ _ hp | requeue _ _ _ _ hp
  | drop _ _ _ _ _ hp | again _ _ _ _ _ hp | retire _ _ _ _ _ _ hp =>
    exact .inl (congrFun hp i)
  | @begin j _ _ _ hj _ _ _ hp =>
    rw [hp]
    by_cases hij : i = j
    · subst hij
      exact .inr (.inr ⟨_, _, hj, rfl, Function.update_self ..⟩)
    · exact .inl (Function.update_of_ne hij ..)
  | @restage j _ p _ _ hj _ _ _ _ hp | @enter j _ p _ _ hj _ _ _ _ hp =>
    rw [hp]
    by_cases hij : i = j
    · subst hij
      exact .inr (.inl ⟨p, _, hj, Function.update_self .., rfl⟩)
    · exact .inl (Function.update_of_ne hij ..)

/-- A push keeps its functor. -/
theorem Moves.pushes_kept {s s' : Thread F} {a : Action F} (h : s.Moves a s') {i : Nat}
    {p : Push F} (hi : s.pushes i = some p) :
    ∃ p', s'.pushes i = some p' ∧ p'.function = p.function := by
  rcases h.pushes_cases i with hp | ⟨q, q', hq, hq', hf⟩ | ⟨_, _, hn, _, _⟩
  · exact ⟨p, by rw [hp, hi], rfl⟩
  · obtain rfl : p = q := Option.some.inj (hi.symm.trans hq)
    exact ⟨q', hq', hf⟩
  · rw [hi] at hn
    cases hn

private theorem entered_update {s s' : Thread F} {j : Nat} {p : Push F}
    (hp : s'.pushes = Function.update s.pushes j (some p)) (i : Nat) :
    s'.entered i = if i = j then p.entered else s.entered i := by
  unfold entered
  rw [hp]
  by_cases hij : i = j
  · subst hij; simp
  · simp [hij]

/-- A step changes the places by the task that a push queues, if it does that. -/
theorem Moves.count_places {s s' : Thread F} {a : Action F} (h : s.Moves a s') (i : Nat) :
    s'.places.count i + (s.entered i).toNat = s.places.count i + (s'.entered i).toNat := by
  have hkeep : s'.pushes = s.pushes → s'.entered i = s.entered i := by
    intro hp
    unfold entered
    rw [hp]
  simp only [count_places_eq]
  cases h with
  | keep _ hq hh hr hp => rw [hkeep hp, hq, hh, hr]
  | @begin j _ _ _ hj hq hh hr hp =>
    have he : s'.entered i = s.entered i := by
      rw [entered_update hp]
      split
      · next hij => simp [hij, entered, hj, Push.entered]
      · rfl
    rw [he, hq, hh, hr]
  | @restage j _ p _ _ hj hst hq hh hr hp =>
    have he : s'.entered i = s.entered i := by
      rw [entered_update hp, hst]
      split
      · next hij => simp [hij, entered, hj]
      · rfl
    rw [he, hq, hh, hr]
  | @enter j _ p _ _ hj hst hq hh hr hp =>
    rw [entered_update hp, hq, hh, hr]
    by_cases hij : i = j
    · -- the task of this push comes in, and was nowhere before
      subst hij
      have he : s.entered i = false := by simp [entered, hj, hst]
      simp [he, Push.entered, List.count_append]
      omega
    · simp [hij, List.count_append, Ne.symm hij]
  | take hs hq hh hr hp =>
    rw [hkeep hp, hs, hq, hh, hr]
    simp [List.count_cons, Nat.add_right_comm]
  | stamp hs hq hh hr hp =>
    rw [hkeep hp, hs, hq, hh, hr]
    rfl
  | requeue hs hq hh hr hp =>
    rw [hkeep hp, hs, hq, hh, hr]
    simp [List.count_append]
  | again hs _ hq hh hr hp => rw [hkeep hp, hs, hq, hh, hr]
  | drop hs _ hq hh hr hp | retire hs _ _ hq hh hr hp =>
    rw [hkeep hp, hs, hq, hh, hr]
    simp [List.count_append]
    omega

/-- In every reachable state a task that was queued is in exactly one place, and no other is
anywhere. -/
theorem count_places {acts : List (Action F)} {s : Thread F}
    (hrun : step.run init acts = some s) (i : Nat) :
    s.places.count i = (s.entered i).toNat := by
  have hstep : ∀ (u : Thread F) a t, u.places.count i = (u.entered i).toNat →
      step u a = some t → t.places.count i = (t.entered i).toNat := by
    intro u a t hu ht
    have := (step_moves ht).count_places i
    omega
  exact Machine.run_invariant (I := fun t => t.places.count i = (t.entered i).toNat)
    hstep rfl hrun

theorem places_nodup {acts : List (Action F)} {s : Thread F}
    (hrun : step.run init acts = some s) : s.places.Nodup := by
  rw [List.nodup_iff_count]
  intro i
  rw [count_places hrun]
  exact Bool.toNat_le _

/-- The tasks in the queue or in hand carry the functor of their push and loop. -/
def TuplesKnown (s : Thread F) : Prop :=
  ∀ t ∈ s.tuples, t.isLoop = true ∧ ∃ p, s.pushes t.id = some p ∧ p.function = t.function

/-- A task in the queue or in hand after a step was there before, or a push queued it. -/
theorem Moves.mem_tuples {s s' : Thread F} {a : Action F} (h : s.Moves a s') {t : Tuple F}
    (ht : t ∈ s'.tuples) :
    (∃ u ∈ s.tuples, u.id = t.id ∧ u.function = t.function ∧ u.isLoop = t.isLoop) ∨
      t.isLoop = true ∧ ∃ p, s'.pushes t.id = some p ∧ p.function = t.function := by
  cases h with
  | keep _ hq hh | begin _ hq hh | restage _ _ hq hh =>
    exact .inl ⟨t, by simpa [tuples, hq, hh] using ht, rfl, rfl, rfl⟩
  | @enter _ _ p _ _ _ _ hq hh _ hp =>
    rw [tuples, hq, hh] at ht
    rcases List.mem_append.mp ht with ht | ht
    · rcases List.mem_append.mp ht with ht | ht
      · exact .inl ⟨t, List.mem_append_left _ ht, rfl, rfl, rfl⟩
      · obtain rfl := List.mem_singleton.mp ht
        exact .inr ⟨rfl, { p with stage := .queued },
          (congrFun hp _).trans (Function.update_self ..), rfl⟩
    · exact .inl ⟨t, List.mem_append_right _ ht, rfl, rfl, rfl⟩
  | take hs hq hh =>
    have : t ∈ s.tuples := by
      simp only [tuples, hs, hq, hh] at ht ⊢
      simpa [or_comm] using ht
    exact .inl ⟨t, this, rfl, rfl, rfl⟩
  | @stamp _ u ts _ hs hq hh =>
    simp only [tuples, hq, hh, Option.toList_some, List.mem_append, List.mem_singleton] at ht
    rcases ht with ht | rfl
    · exact .inl ⟨t, List.mem_append_left _ ht, rfl, rfl, rfl⟩
    · exact .inl ⟨u, List.mem_append_right _ (by simp [hs]), rfl, rfl, rfl⟩
  | requeue hs hq hh | again hs _ hq hh =>
    have : t ∈ s.tuples := by
      simpa [tuples, hs, hq, hh] using ht
    exact .inl ⟨t, this, rfl, rfl, rfl⟩
  | drop _ _ hq hh | retire _ _ _ hq hh =>
    have : t ∈ s.tuples := by
      simp only [tuples, hq, hh, Option.toList_none, List.append_nil] at ht
      exact List.mem_append_left _ ht
    exact .inl ⟨t, this, rfl, rfl, rfl⟩

theorem Moves.tuplesKnown {s s' : Thread F} {a : Action F} (h : s.Moves a s')
    (hs : s.TuplesKnown) : s'.TuplesKnown := by
  intro t ht
  rcases h.mem_tuples ht with ⟨u, hu, hid, hfn, hloop⟩ | hnew
  · obtain ⟨hl, p, hp, hf⟩ := hs u hu
    obtain ⟨p', hp', hf'⟩ := h.pushes_kept hp
    exact ⟨hloop ▸ hl, p', hid ▸ hp', by rw [hf', hf, hfn]⟩
  · exact hnew

end Thread

/-- Whether the action is a run of task `i` that ends, and whether it is the last one. -/
def Thread.Action.isRunOf (i : Nat) : Thread.Action F → Bool
  | .functorEnds j _ => j = i
  | _ => false

def Thread.Action.isLastRunOf (i : Nat) : Thread.Action F → Bool
  | .functorEnds j o => j = i && o.isLast
  | _ => false

namespace Thread

/-- What the runs of the tasks say about where they are. -/
structure RunsMatch (acts : List (Action F)) (s : Thread F) : Prop where
  nonempty : ∀ i p, s.pushes i = some p → p.function ≠ .empty
  tuplesKnown : s.TuplesKnown
  lastRuns : ∀ i, acts.countP (Action.isLastRunOf i) = s.retired.count i
  goesOn : ∀ i, .functorEnds i (.returns .CONTINUE) ∈ acts →
    ∃ p, s.pushes i = some p ∧ p.function.allows (.returns .CONTINUE)

theorem Moves.nonempty {s s' : Thread F} {a : Action F} (h : s.Moves a s')
    (ha : ∀ i ms, a ≠ .pushBegin i .empty ms)
    (hs : ∀ i p, s.pushes i = some p → p.function ≠ .empty) :
    ∀ i p, s'.pushes i = some p → p.function ≠ .empty := by
  intro i p hi
  rcases h.pushes_cases i with hp | ⟨q, q', hq, hq', hf⟩ | ⟨function, ms, _, rfl, hp⟩
  · exact hs i p (by rw [← hp, hi])
  · obtain rfl : p = q' := Option.some.inj (hi.symm.trans hq')
    rw [hf]
    exact hs i q hq
  · obtain rfl := Option.some.inj (hi.symm.trans hp)
    rintro rfl
    exact ha i ms rfl

theorem mem_tuples_of_hand {s : Thread F} {t : Tuple F} (h : s.worker.hand = some t) :
    t ∈ s.tuples :=
  List.mem_append_right _ (by simp [h])

/-- The runs so far and the places stay matched while no empty functor is pushed. -/
theorem RunsMatch.step {acts : List (Action F)} {s s' : Thread F} {a : Action F}
    (hs : RunsMatch acts s) (ha : ∀ i ms, a ≠ .pushBegin i .empty ms) (h : s.Moves a s') :
    RunsMatch (acts ++ [a]) s' := by
  refine ⟨h.nonempty ha hs.nonempty, h.tuplesKnown hs.tuplesKnown, ?_, ?_⟩
  · intro i
    rw [List.countP_append, hs.lastRuns]
    cases h with
    | keep ha' _ _ hr =>
      cases a with
      | functorEnds j o => exact absurd rfl (ha' j o)
      | _ => simp [Action.isLastRunOf, hr]
    | begin _ _ _ hr | restage _ _ _ _ hr | enter _ _ _ _ hr | take _ _ _ hr | stamp _ _ _ hr
    | requeue _ _ _ hr => simp [Action.isLastRunOf, hr]
    | @drop _ t _ hs' hf =>
      -- only an empty functor is dropped without a run
      obtain ⟨_, p, hp, hpf⟩ := hs.tuplesKnown t (mem_tuples_of_hand hs')
      exact absurd (hpf.trans hf) (hs.nonempty _ p hp)
    | again _ _ _ _ hr => simp [Action.isLastRunOf, Outcome.isLast, hr]
    | @retire t o _ hs' hf ho _ _ hr =>
      have hl := (hs.tuplesKnown t (mem_tuples_of_hand hs')).1
      have ho : o.isLast = true := by simpa [hl] using ho
      simp [Action.isLastRunOf, ho, hr, List.count_append, List.count_singleton]
  · intro i hi
    rcases List.mem_append.mp hi with hi | hi
    · obtain ⟨p, hp, hf⟩ := hs.goesOn i hi
      obtain ⟨p', hp', hf'⟩ := h.pushes_kept hp
      exact ⟨p', hp', hf' ▸ hf⟩
    · obtain rfl := List.mem_singleton.mp hi
      have hknown : ∀ t, s.worker.hand = some t → t.id = i →
          t.function.allows (.returns .CONTINUE) →
          ∃ p, s'.pushes i = some p ∧ p.function.allows (.returns .CONTINUE) := by
        rintro t ht rfl hf
        obtain ⟨_, p, hp, hpf⟩ := hs.tuplesKnown t (mem_tuples_of_hand ht)
        obtain ⟨p', hp', hf'⟩ := h.pushes_kept hp
        exact ⟨p', hp', by rw [hf', hpf, hf]⟩
      generalize ha : Action.functorEnds i (.returns .CONTINUE) = a at h
      cases h with
      | keep ha' => exact absurd ha.symm (ha' _ _)
      | begin | restage | enter | take | stamp | requeue | drop => cases ha
      | again ht hf | retire ht hf =>
        cases ha
        exact hknown _ ht rfl hf

theorem runsMatch {acts : List (Action F)} {s : Thread F}
    (hne : ∀ i ms, .pushBegin i .empty ms ∉ acts) (hrun : step.run init acts = some s) :
    RunsMatch acts s := by
  refine Machine.run_history (P := fun a => ∀ i ms, a ≠ .pushBegin i .empty ms)
    (fun as u a t hu ha ht => hu.step ha (step_moves ht)) ?_ ?_ hrun
  · exact ⟨by simp [init], by simp [TuplesKnown, tuples, init, Worker.hand], by simp [init],
      by simp⟩
  · rintro a ha i ms rfl
    exact hne i ms ha

/-- Conservation of tasks in a state reached by `acts`. -/
structure Conserved (acts : List (Action F)) (s : Thread F) : Prop where
  one_place : ∀ i, s.entered i → (s.queue.map Tuple.id).count i +
    (s.worker.hand.toList.map Tuple.id).count i + s.retired.count i = 1
  retired_after : ∀ i ∈ s.retired, ∃ o, o.isLast ∧ .functorEnds i o ∈ acts
  run_once : ∀ i p func, s.pushes i = some p → p.function = .postTask func →
    acts.countP (Action.isRunOf i) + (s.worker.isRunning i).toNat ≤ 1
  queued_once : (s.queue.map Tuple.id).Nodup

theorem count_hand_of_isRunning {s : Thread F} {i : Nat} (h : s.worker.isRunning i) :
    (s.worker.hand.toList.map Tuple.id).count i = 1 := by
  unfold Worker.isRunning at h
  split at h
  · next b t hw =>
    obtain rfl : t.id = i := by simpa using h
    simp [hw, Worker.hand]
  · cases h

/-- The runs of a `postTask` task are its last runs, so that its retirement counts them. -/
theorem RunsMatch.countP_isRunOf {acts : List (Action F)} {s : Thread F}
    (h : RunsMatch acts s) {i : Nat} {p : Push F} {func : F} (hp : s.pushes i = some p)
    (hf : p.function = .postTask func) :
    acts.countP (Action.isRunOf i) = s.retired.count i := by
  rw [← h.lastRuns]
  refine List.countP_congr fun a ha => ?_
  cases a with
  | functorEnds j o =>
    by_cases hj : j = i
    · subst hj
      cases o with
      | returns st =>
        cases st with
        | FINISH => simp [Action.isRunOf, Action.isLastRunOf, Outcome.isLast]
        | CONTINUE =>
          obtain ⟨q, hq, hqf⟩ := h.goesOn j ha
          obtain rfl := Option.some.inj (hp.symm.trans hq)
          simp [hf, Functor.allows, Outcome.isLast] at hqf
      | throws e => simp [Action.isRunOf, Action.isLastRunOf, Outcome.isLast]
    · simp [Action.isRunOf, Action.isLastRunOf, hj]
  | _ => simp [Action.isRunOf, Action.isLastRunOf]

/-- Tasks are conserved over every run in which the pushed functors are not empty, whatever
they return or throw: each is in one place, leaves it only by a last run, and a `postTask`
task runs at most once. -/
theorem conservation {acts : List (Action F)} {s : Thread F}
    (hne : ∀ i ms, .pushBegin i .empty ms ∉ acts) (hrun : step.run init acts = some s) :
    Conserved acts s := by
  have hm := runsMatch hne hrun
  have hcount : ∀ i, (s.queue.map Tuple.id).count i +
      (s.worker.hand.toList.map Tuple.id).count i + s.retired.count i = (s.entered i).toNat := by
    intro i
    rw [← count_places_eq, count_places hrun]
  refine ⟨?_, ?_, ?_, ?_⟩
  · intro i hi
    rw [hcount, hi]
    rfl
  · intro i hi
    have hpos : 0 < acts.countP (Action.isLastRunOf i) := by
      rw [hm.lastRuns]
      exact List.count_pos_iff.mpr hi
    obtain ⟨a, ha, hl⟩ := List.countP_pos_iff.mp hpos
    cases a with
    | functorEnds j o =>
      obtain ⟨rfl, ho⟩ : j = i ∧ o.isLast = true := by simpa [Action.isLastRunOf] using hl
      exact ⟨o, ho, ha⟩
    | _ => simp [Action.isLastRunOf] at hl
  · intro i p func hp hf
    rw [hm.countP_isRunOf hp hf]
    have hle := Bool.toNat_le (s.entered i)
    have hi := hcount i
    by_cases hr : s.worker.isRunning i
    · -- a task that is running is in hand, so it has not been retired
      have hhand := count_hand_of_isRunning hr
      simp only [hr, Bool.toNat_true]
      omega
    · simp only [hr, Bool.toNat_false]
      omega
  · have hnodup := places_nodup hrun
    simp only [places, tuples, List.map_append, List.append_assoc] at hnodup
    exact (List.nodup_append.mp hnodup).1

/-- A call of `push` with delay 0, from its begin to its end. -/
def pushed (i : Nat) (function : Functor Unit) : List (Action Unit) :=
  .pushBegin i function 0 :: List.replicate 3 (.push i 0)

/-- A task with delay 0 from its push to its only run. -/
theorem conservation_of_one_task :
    ∃ acts, ∃ s : Thread Unit, step.run init acts = some s ∧ s.retired = [0] ∧
      Conserved acts s :=
  ⟨pushed 0 (.postTask ()) ++
      List.replicate 4 (.worker 0) ++ [.functorEnds 0 (.returns .FINISH)],
    _, rfl, rfl, conservation (by simp [pushed]) rfl⟩

end Thread

end FHT.Task
