import Mathlib.Data.Fintype.Basic
import FHT.Task.Batch
import FHT.Task.Conservation

/-!
# The task manager

`Task` owns one thread for each name of `listTask`, and posts a task to the thread that its
caller names. The threads share nothing but the process: an exception that leaves one of them
ends all. The destructor destroys them one after another.

## Main definitions

- `Manager` — the members of `Task`, with the threads that `factory_` refers to
- `Manager.step` — the posts, the steps of all threads and those of `stopManager`
- `Manager.share` — what a step is for one of the threads

## Main results

- `Manager.step_share`, `Manager.run_share` — each thread runs as it would by itself
- `Manager.conserved` — a posted task stays with its thread, and is conserved by all together
- `Manager.goesOn_iff` — what ends the process
-/

namespace FHT.Task

namespace Thread

variable {F : Type*}

theorem pushes_none_of_step {s s' : Thread F} {a : Action F} {i : Nat} (h : step s a = some s')
    (hi : s.pushes i = none) (ha : ∀ function ms, a ≠ .pushBegin i function ms) :
    s'.pushes i = none := by
  rcases (step_moves h).pushes_cases i with hp | ⟨p, p', hp, _⟩ | ⟨function, ms, _, rfl, _⟩
  · rw [hp, hi]
  · rw [hi] at hp
    cases hp
  · exact absurd rfl (ha function ms)

theorem pushes_isSome_of_step {s s' : Thread F} {a : Action F} {i : Nat}
    (h : step s a = some s') (hi : (s.pushes i).isSome) : (s'.pushes i).isSome := by
  obtain ⟨p, hp⟩ := Option.isSome_iff_exists.mp hi
  obtain ⟨p', hp', -⟩ := (step_moves h).pushes_kept hp
  simp [hp']

/-- What has run has been pushed. -/
theorem pushed_of_ran {acts : List (Action F)} {s : Thread F} (hrun : step.run init acts = some s)
    {i : Nat} {o : Outcome} (h : .functorEnds i o ∈ acts) : (s.pushes i).isSome := by
  refine (Machine.run_history (P := fun _ => True) (I := fun acts s => s.TuplesKnown ∧
    ∀ i o, .functorEnds i o ∈ acts → (s.pushes i).isSome) ?_ ⟨?_, by simp⟩
    (fun _ _ => trivial) hrun).2 i o h
  · rintro acts s a t ⟨hknown, hran⟩ - hstep
    refine ⟨(step_moves hstep).tuplesKnown hknown, fun i o hmem => ?_⟩
    rcases List.mem_append.mp hmem with hmem | hmem
    · exact pushes_isSome_of_step hstep (hran i o hmem)
    · obtain rfl := List.mem_singleton.mp hmem
      obtain ⟨b, u, hw, rfl⟩ := (functorEnds_cases (act_of_step hstep)).running
      obtain ⟨_, p, hp, _⟩ := hknown u (mem_tuples_of_hand (by rw [hw]; rfl))
      exact pushes_isSome_of_step hstep (by simp [hp])
  · simp [TuplesKnown, tuples, init, Worker.hand]

/-- What has been pushed was begun. -/
theorem begun_of_pushed {acts : List (Action F)} {s : Thread F}
    (hrun : step.run init acts = some s) {i : Nat} (h : (s.pushes i).isSome) :
    ∃ function ms, .pushBegin i function ms ∈ acts := by
  refine Machine.run_history (P := fun _ => True) (I := fun acts s => (s.pushes i).isSome →
    ∃ function ms, .pushBegin i function ms ∈ acts) ?_ (by simp [init]) (fun _ _ => trivial)
    hrun h
  intro acts s a t hbegun _ hstep ht
  rcases (step_moves hstep).pushes_cases i with hp | ⟨p, _, hp, _⟩ | ⟨function, ms, _, rfl, _⟩
  · obtain ⟨function, ms, hmem⟩ := hbegun (hp ▸ ht)
    exact ⟨function, ms, List.mem_append_left _ hmem⟩
  · obtain ⟨function, ms, hmem⟩ := hbegun (by simp [hp])
    exact ⟨function, ms, List.mem_append_left _ hmem⟩
  · exact ⟨function, ms, by simp⟩

theorem pushes_isSome_of_run {acts : List (Action F)} {s t : Thread F} {i : Nat}
    (hrun : step.run s acts = some t) (hi : (s.pushes i).isSome) : (t.pushes i).isSome :=
  Machine.run_invariant (I := fun u => (u.pushes i).isSome)
    (fun _ _ _ hu ht => pushes_isSome_of_step ht hu) hi hrun

/-- A task of `postTask` runs at most once. -/
theorem run_once {acts : List (Action F)} {s : Thread F}
    (hne : ∀ i ms, .pushBegin i .empty ms ∉ acts) (hrun : step.run init acts = some s)
    {i : Nat} {p : Push F} {func : F} (hp : s.pushes i = some p)
    (hf : p.function = .postTask func) :
    acts.countP (Action.isRunOf i) + (s.worker.isRunning i).toNat ≤ 1 := by
  rw [(runsMatch hne hrun).countP_isRunOf hp hf]
  have hcount := count_places hrun i
  have hle := Bool.toNat_le (s.entered i)
  rw [count_places_eq] at hcount
  cases hr : s.worker.isRunning i with
  | true =>
    have hhand := count_hand_of_isRunning hr
    rw [Bool.toNat_true]
    omega
  | false =>
    rw [Bool.toNat_false]
    omega

end Thread

/-- Whether an exception has left the loop, or it has popped an empty queue. -/
def Worker.fatal {F : Type*} : Worker F → Bool
  | .terminated | .fault => true
  | _ => false

namespace Thread

variable {F : Type*}

end Thread

/-- `iTask::listTask`, whose last enumerator counts the others. -/
inductive ListTask
  | fhtMain
  | main
  | io
  | ui
  | size
  deriving DecidableEq

/-- `static_cast<std::size_t>`. -/
def ListTask.index : ListTask → Nat
  | fhtMain => 0
  | main => 1
  | io => 2
  | ui => 3
  | size => 4

/-- The indices of `std::make_index_sequence<iTask::listTask::size>`. -/
abbrev Key := Fin ListTask.size.index

/-- The members `isRun` and `factory_` of `Task`, the latter by its keys, with the threads. An
entry of `factory_` holds a reference to its thread, and so does a call of `push` that is under
way (`calls`). `clearing` is the thread whose destructor `factory_.clear()` is in, and `crashed`
says that `push` was called on a null pointer. -/
structure Manager (F : Type*) where
  isRun : Bool
  factory : Finset Key
  threads : Key → Thread F
  calls : List (Nat × Key)
  clearing : Option Key
  crashed : Bool

namespace Manager

variable {F : Type*}

/-- The keys of `make_factory`. -/
def makeFactory : Finset Key := Finset.univ

/-- After the constructor, which sets `isRun` to what `startManager` returns. -/
def init : Manager F where
  isRun := decide (makeFactory ≠ ∅)
  factory := makeFactory
  threads := fun _ => .init
  calls := []
  clearing := none
  crashed := false

def getTaskThread (s : Manager F) (thread : ListTask) : Option Key :=
  if h : thread.index < ListTask.size.index then
    if ⟨thread.index, h⟩ ∈ s.factory then some ⟨thread.index, h⟩ else none
  else none

/-- Whether the thread is being pushed to. -/
def pushing (s : Manager F) (k : Key) : Bool := s.calls.any fun c => c.2 = k

/-- Whether no call of `push` has this name yet. -/
def unused (s : Manager F) (i : Nat) : Prop := ∀ k, (s.threads k).pushes i = none

instance (s : Manager F) (i : Nat) : Decidable (s.unused i) :=
  decidable_of_iff (∀ k, ((s.threads k).pushes i).isNone)
    (forall_congr' fun _ => Option.isNone_iff_eq_none)

/-- Whether the process has ended. -/
def ended (s : Manager F) : Prop := s.crashed = true ∨ ∃ k, (s.threads k).worker.fatal = true

instance (s : Manager F) : Decidable s.ended := inferInstanceAs (Decidable (_ ∨ _))

/-- `postTask` and `postLoopTask`, with the functor that they push. -/
def post (s : Manager F) (i : Nat) (thread : ListTask) (function : Functor F) (ms : Int) :
    Option (Manager F) :=
  if s.isRun then
    match s.getTaskThread thread with
    | none => some { s with crashed := true }
    | some k =>
      if s.unused i then
        (Thread.step (s.threads k) (.pushBegin i function ms)).map fun t => { s with
          threads := Function.update s.threads k t
          calls := (i, k) :: s.calls }
      else none
  else some s

/-- Whether the thread may take this step. It is pushed to by `post` only, and its destructor
runs when nothing refers to it any more. -/
def allows (s : Manager F) (k : Key) : Thread.Action F → Bool
  | .pushBegin _ _ _ => false
  | .destructor => (s.threads k).destructor ≠ .alive ∨ k ∉ s.factory ∧ s.pushing k = false
  | .push _ _ | .worker _ | .functorEnds _ _ | .timer | .spurious => true

/-- A call of `push` that has returned gives its reference back. -/
def callsAfter (s : Manager F) (k : Key) (a : Thread.Action F) (t : Thread F) :
    List (Nat × Key) :=
  match a with
  | .push i _ =>
    match t.pushes i with
    | some ⟨_, _, .returned⟩ => s.calls.erase (i, k)
    | _ => s.calls
  | _ => s.calls

/-- A step of the thread `k`. -/
def threadStep (s : Manager F) (k : Key) (a : Thread.Action F) : Option (Manager F) :=
  if s.allows k a then
    (Thread.step (s.threads k) a).map fun t => { s with
      threads := Function.update s.threads k t
      calls := s.callsAfter k a t }
  else none

/-- Whether `factory_.clear()` is in no destructor of a thread. -/
def cleared (s : Manager F) : Bool :=
  match s.clearing with
  | none => true
  | some k => (s.threads k).destructor = .destroyed

/-- `factory_.clear()` erases the entry `k`, in whatever order. With it goes the last reference
to the thread, and its destructor begins, unless the thread is being pushed to. -/
def erase (s : Manager F) (k : Key) : Option (Manager F) :=
  if k ∈ s.factory ∧ s.cleared then
    if s.pushing k then some { s with factory := s.factory.erase k, clearing := none }
    else
      (Thread.step (s.threads k) .destructor).map fun t => { s with
        factory := s.factory.erase k
        threads := Function.update s.threads k t
        clearing := some k }
  else none

/-- What moves: a client posts, a thread goes on, `stopManager` erases an entry. -/
inductive Action (F : Type*)
  | post (i : Nat) (thread : ListTask) (function : Functor F) (ms : Int)
  | thread (k : Key) (a : Thread.Action F)
  | erase (k : Key)

def act (s : Manager F) : Action F → Option (Manager F)
  | .post i thread function ms => s.post i thread function ms
  | .thread k a => s.threadStep k a
  | .erase k => s.erase k

def step : Machine (Manager F) (Action F) :=
  fun s a => if s.ended then none else s.act a

/-- What a step does. -/
inductive Steps (s : Manager F) : Action F → Manager F → Prop
  | post {i thread function ms k t} (hrun : s.isRun = true)
      (hk : s.getTaskThread thread = some k) (hi : s.unused i)
      (ht : Thread.step (s.threads k) (.pushBegin i function ms) = some t) :
      Steps s (.post i thread function ms) { s with
        threads := Function.update s.threads k t
        calls := (i, k) :: s.calls }
  | crash {i thread function ms} (hrun : s.isRun = true) (hk : s.getTaskThread thread = none) :
      Steps s (.post i thread function ms) { s with crashed := true }
  | ignore {i thread function ms} (hrun : s.isRun = false) :
      Steps s (.post i thread function ms) s
  | thread {k a t} (ha : s.allows k a = true) (ht : Thread.step (s.threads k) a = some t) :
      Steps s (.thread k a) { s with
        threads := Function.update s.threads k t
        calls := s.callsAfter k a t }
  | keep {k} (hk : k ∈ s.factory) (hc : s.cleared = true) (hp : s.pushing k = true) :
      Steps s (.erase k) { s with factory := s.factory.erase k, clearing := none }
  | destroy {k t} (hk : k ∈ s.factory) (hc : s.cleared = true) (hp : s.pushing k = false)
      (ht : Thread.step (s.threads k) .destructor = some t) :
      Steps s (.erase k) { s with
        factory := s.factory.erase k
        threads := Function.update s.threads k t
        clearing := some k }

theorem step_cases {s s' : Manager F} {a : Action F} (h : step s a = some s') :
    ¬ s.ended ∧ s.Steps a s' := by
  rw [step] at h
  split at h
  · cases h
  · next hended =>
    refine ⟨hended, ?_⟩
    cases a with
    | post i thread function ms =>
      rw [act, post] at h
      split at h
      · next hrun =>
        split at h
        · next hk =>
          obtain rfl := Option.some.inj h
          exact .crash hrun hk
        · next k hk =>
          split at h
          · next hi =>
            obtain ⟨t, ht, rfl⟩ := Option.map_eq_some_iff.mp h
            exact .post hrun hk hi ht
          · cases h
      · next hrun =>
        obtain rfl := Option.some.inj h
        exact .ignore (Bool.eq_false_iff.mpr hrun)
    | thread k a =>
      rw [act, threadStep] at h
      split at h
      · next ha =>
        obtain ⟨t, ht, rfl⟩ := Option.map_eq_some_iff.mp h
        exact .thread ha ht
      · cases h
    | erase k =>
      rw [act, erase] at h
      split at h
      · next hk =>
        split at h
        · next hp =>
          obtain rfl := Option.some.inj h
          exact .keep hk.1 hk.2 hp
        · next hp =>
          obtain ⟨t, ht, rfl⟩ := Option.map_eq_some_iff.mp h
          exact .destroy hk.1 hk.2 (Bool.eq_false_iff.mpr hp) ht
      · cases h

/-- What a step is for the thread `k`. -/
def share (k : Key) (s : Manager F) : Action F → List (Thread.Action F)
  | .post i thread function ms =>
    if s.isRun ∧ s.getTaskThread thread = some k then [.pushBegin i function ms] else []
  | .thread k' a => if k' = k then [a] else []
  | .erase k' => if k' = k ∧ s.pushing k' = false then [.destructor] else []

theorem run_update {s : Manager F} {k k' : Key} {t : Thread F} {a : Thread.Action F}
    (ht : Thread.step (s.threads k') a = some t) :
    Thread.step.run (s.threads k) (if k' = k then [a] else []) =
      some (Function.update s.threads k' t k) := by
  by_cases hk : k' = k
  · subst hk
    rw [if_pos rfl, Function.update_self]
    exact Machine.run_cons_eq_some.mpr ⟨t, ht, rfl⟩
  · rw [if_neg hk, Function.update_of_ne (Ne.symm hk)]
    rfl

/-- A step moves each thread by its share. -/
theorem step_share {s s' : Manager F} {a : Action F} (k : Key) (h : step s a = some s') :
    Thread.step.run (s.threads k) (s.share k a) = some (s'.threads k) := by
  cases (step_cases h).2 with
  | post hrun hk _ ht =>
    simp only [share, hrun, hk, true_and, Option.some.injEq]
    exact run_update ht
  | crash _ hk =>
    simp only [share, hk, reduceCtorEq, and_false, if_false]
    rfl
  | ignore hrun =>
    simp only [share, hrun, Bool.false_eq_true, false_and, if_false]
    rfl
  | thread _ ht => exact run_update ht
  | keep _ _ hp =>
    simp only [share, hp, Bool.true_eq_false, and_false, if_false]
    rfl
  | destroy _ _ hp ht =>
    simp only [share, hp, and_true]
    exact run_update ht

/-- Each thread runs as it would by itself, with the posts to it as its pushes. -/
theorem run_share {acts : List (Action F)} {s : Manager F} (k : Key)
    (hrun : step.run init acts = some s) :
    Thread.step.run .init (step.observe (share k) init acts) = some (s.threads k) :=
  Machine.run_refines (f := fun s : Manager F => s.threads k) (fun _ _ _ h => step_share k h) hrun

/-- Whether the action is a run of task `i` on the thread `k` that ends. -/
def Action.isRunOf (k : Key) (i : Nat) : Action F → Bool
  | .thread k' a => k' = k ∧ a.isRunOf i
  | .post _ _ _ _ | .erase _ => false

theorem countP_share {acts : List (Action F)} {s : Manager F} (k : Key) (i : Nat)
    (hrun : step.run init acts = some s) :
    (step.observe (share k) init acts).countP (Thread.Action.isRunOf i) =
      acts.countP (Action.isRunOf k i) := by
  refine Machine.countP_observe (fun s a t _ => ?_) hrun
  cases a with
  | post i thread function ms =>
    simp only [share, Action.isRunOf]
    split <;> rfl
  | thread k' a =>
    by_cases hk : k' = k
    · cases ha : a.isRunOf i <;> simp [share, Action.isRunOf, hk, ha]
    · simp [share, Action.isRunOf, hk]
  | erase k' =>
    simp only [share, Action.isRunOf]
    split <;> rfl

theorem mem_share_thread {acts : List (Action F)} {k : Key} {a : Thread.Action F}
    {s : Manager F} (hrun : step.run init acts = some s) (h : .thread k a ∈ acts) :
    a ∈ step.observe (share k) init acts := by
  obtain ⟨pre, post, rfl⟩ := List.append_of_mem h
  rw [Machine.run_append, Option.bind_eq_some_iff] at hrun
  obtain ⟨u, hu, hrun⟩ := hrun
  obtain ⟨v, hv, hrun⟩ := Machine.run_cons_eq_some.mp hrun
  rw [Machine.observe_append hu]
  refine List.mem_append_right _ ?_
  simp only [Machine.observe, share, if_true]
  exact List.mem_append_left _ (List.mem_singleton_self a)

theorem val_of_getTaskThread {s : Manager F} {thread : ListTask} {k : Key}
    (h : s.getTaskThread thread = some k) : k.val = thread.index := by
  rw [getTaskThread] at h
  split at h
  · split at h
    · exact (congrArg Fin.val (Option.some.inj h)).symm
    · cases h
  · cases h

/-- Only posts push. -/
theorem post_of_mem_share {acts : List (Action F)} {k : Key} {i : Nat} {function : Functor F}
    {ms : Int} {s : Manager F} (hrun : step.run init acts = some s)
    (h : .pushBegin i function ms ∈ step.observe (share k) init acts) :
    ∃ thread, .post i thread function ms ∈ acts ∧ thread.index = k.val := by
  obtain ⟨pre, a, post, u, rfl, hu, ha⟩ := Machine.mem_observe h
  cases a with
  | post j thread function' ms' =>
    simp only [share] at ha
    split at ha
    · next hk =>
      obtain ⟨rfl, rfl, rfl⟩ : i = j ∧ function = function' ∧ ms = ms' := by simpa using ha
      exact ⟨thread, List.mem_append_right _ (List.mem_cons_self ..),
        (val_of_getTaskThread hk.2).symm⟩
    · cases ha
  | thread k' a =>
    simp only [share] at ha
    split at ha
    · -- the step of a thread is no push
      obtain rfl := List.mem_singleton.mp ha
      rw [Machine.run_append, hu] at hrun
      obtain ⟨v, hv, -⟩ := Machine.run_cons_eq_some.mp hrun
      cases (step_cases hv).2 with
      | thread hallow => cases hallow
    · cases ha
  | erase k' =>
    simp only [share] at ha
    split at ha
    · simp at ha
    · cases ha

/-- No two threads are pushed the same task. -/
def Alone (s : Manager F) : Prop :=
  ∀ i k k', ((s.threads k).pushes i).isSome → ((s.threads k').pushes i).isSome → k = k'

/-- The pushes of the threads, after one of them took a step that begins no push. -/
theorem Alone.update {s s' : Manager F} {k : Key} {a : Thread.Action F} {t : Thread F}
    (h : s.Alone) (ht : Thread.step (s.threads k) a = some t)
    (ha : ∀ i function ms, a ≠ .pushBegin i function ms ∨ s.unused i)
    (hs' : s'.threads = Function.update s.threads k t) : s'.Alone := by
  -- a thread other than `k` has the pushes it had, and `k` those it had and perhaps a new one
  have hbefore : ∀ i j, ((s'.threads j).pushes i).isSome →
      ((s.threads j).pushes i).isSome ∨ j = k ∧ s.unused i := by
    intro i j hj
    rw [hs'] at hj
    by_cases hjk : j = k
    · subst hjk
      rw [Function.update_self] at hj
      cases hi : (s.threads j).pushes i with
      | some p => exact .inl rfl
      | none =>
        by_contra hno
        -- it can only have come with this step
        have hnot : ¬ s.unused i := fun hu => hno (.inr ⟨rfl, hu⟩)
        have hnone := Thread.pushes_none_of_step ht hi fun function ms =>
          (ha i function ms).resolve_right hnot
        rw [hnone] at hj
        cases hj
    · rw [Function.update_of_ne hjk] at hj
      exact .inl hj
  intro i j j' hj hj'
  rcases hbefore i j hj with hj | ⟨rfl, hu⟩
  · rcases hbefore i j' hj' with hj' | ⟨rfl, hu⟩
    · exact h i j j' hj hj'
    · rw [hu j] at hj
      cases hj
  · rcases hbefore i j' hj' with hj' | ⟨rfl, -⟩
    · rw [hu j'] at hj'
      cases hj'
    · rfl

theorem step_alone {s s' : Manager F} {a : Action F} (h : s.Alone) (hs : step s a = some s') :
    s'.Alone := by
  cases (step_cases hs).2 with
  | @post i thread function ms k t _ _ hi ht =>
    -- the name of a new push is unused
    refine h.update ht (fun j function' ms' => ?_) rfl
    by_cases hij : j = i
    · exact .inr (hij ▸ hi)
    · exact .inl fun heq => hij (Thread.Action.pushBegin.inj heq).1.symm
  | crash | ignore | keep => exact h
  | thread ha ht =>
    refine h.update ht (fun i function ms => .inl ?_) rfl
    rintro rfl
    cases ha
  | destroy _ _ _ ht => exact h.update ht (fun i function ms => .inl (by simp)) rfl

theorem alone {acts : List (Action F)} {s : Manager F} (hrun : step.run init acts = some s) :
    s.Alone :=
  Machine.run_invariant (I := Alone) (fun _ _ _ hu ht => step_alone hu ht)
    (fun i k k' hk => by simp [init, Thread.init] at hk) hrun

theorem step_isRun {s s' : Manager F} {a : Action F} (hs : s.isRun = true)
    (h : step s a = some s') : s'.isRun = true := by
  cases (step_cases h).2 with
  | post | crash | ignore | thread | keep | destroy => exact hs

/-- A post arrives at the thread that it names, or crashes. -/
theorem arrived {acts : List (Action F)} {s : Manager F} (hrun : step.run init acts = some s)
    {i : Nat} {thread : ListTask} {function : Functor F} {ms : Int}
    (h : .post i thread function ms ∈ acts) (hs : s.crashed = false) :
    ∃ k : Key, k.val = thread.index ∧ ((s.threads k).pushes i).isSome := by
  refine (Machine.run_history (P := fun _ => True) (I := fun acts s => s.isRun = true ∧
    ∀ i thread function ms, .post i thread function ms ∈ acts → s.crashed = false →
      ∃ k : Key, k.val = thread.index ∧ ((s.threads k).pushes i).isSome) ?_
    ⟨rfl, by simp⟩ (fun _ _ => trivial) hrun).2 i thread function ms h hs
  rintro acts s a t ⟨hisRun, harr⟩ - hstep
  refine ⟨step_isRun hisRun hstep, fun i thread function ms hmem ht => ?_⟩
  obtain ⟨hended, hsteps⟩ := step_cases hstep
  rcases List.mem_append.mp hmem with hmem | hmem
  · have hs : s.crashed = false := Bool.eq_false_iff.mpr fun hc => hended (.inl hc)
    obtain ⟨k, hk, hp⟩ := harr i thread function ms hmem hs
    exact ⟨k, hk, Thread.pushes_isSome_of_run (step_share k hstep) hp⟩
  · obtain rfl := List.mem_singleton.mp hmem
    cases hsteps with
    | @post _ _ _ _ k u _ hk _ hu =>
      refine ⟨k, val_of_getTaskThread hk, ?_⟩
      obtain ⟨-, rfl⟩ := Thread.eq_of_begin hu
      simp
    | crash => cases ht
    | ignore hfalse =>
      rw [hisRun] at hfalse
      cases hfalse

/-- Conservation of tasks over all threads, in a state reached by `acts`. -/
structure Conserved (acts : List (Action F)) (s : Manager F) : Prop where
  arrived : ∀ i thread function ms, .post i thread function ms ∈ acts → s.crashed = false →
    ∃ k : Key, k.val = thread.index ∧ ((s.threads k).pushes i).isSome
  posted : ∀ i k, ((s.threads k).pushes i).isSome →
    ∃ thread function ms, .post i thread function ms ∈ acts ∧ thread.index = k.val
  one_place : ∀ i k, (s.threads k).entered i →
    ∀ k', (s.threads k').places.count i = if k' = k then 1 else 0
  runs_there : ∀ i k, ((s.threads k).pushes i).isSome →
    ∀ k' o, .thread k' (.functorEnds i o) ∈ acts → k' = k
  run_once : ∀ i k p func, (s.threads k).pushes i = some p → p.function = .postTask func →
    acts.countP (Action.isRunOf k i) + ((s.threads k).worker.isRunning i).toNat ≤ 1

/-- In every run in which no empty functor is posted, a posted task goes to the thread that its
post names, and to no other. Once it is queued it is in one place of that thread, and nowhere
else; it runs on that thread only, and at most once if it was given to `postTask`. -/
theorem conserved {acts : List (Action F)} {s : Manager F}
    (hne : ∀ i thread ms, .post i thread .empty ms ∉ acts) (hrun : step.run init acts = some s) :
    Conserved acts s := by
  have halone := alone hrun
  have hne' : ∀ k i ms, .pushBegin i .empty ms ∉ step.observe (share k) init acts := by
    intro k i ms hmem
    obtain ⟨thread, hpost, -⟩ := post_of_mem_share hrun hmem
    exact hne i thread ms hpost
  refine ⟨fun _ _ _ _ hmem hs => arrived hrun hmem hs, ?_, ?_, ?_, ?_⟩
  · intro i k hi
    obtain ⟨function, ms, hmem⟩ := Thread.begun_of_pushed (run_share k hrun) hi
    obtain ⟨thread, hpost, hk⟩ := post_of_mem_share hrun hmem
    exact ⟨thread, function, ms, hpost, hk⟩
  · intro i k hi k'
    rw [Thread.count_places (run_share k' hrun)]
    have hpushed : ∀ j, (s.threads j).entered i = true → ((s.threads j).pushes i).isSome := by
      intro j hj
      cases hp : (s.threads j).pushes i with
      | none => simp [Thread.entered, hp] at hj
      | some p => rfl
    split
    · next hk => rw [hk, hi, Bool.toNat_true]
    · next hk =>
      rw [Bool.toNat_eq_zero, ← Bool.not_eq_true]
      -- another thread would have been pushed the same task
      exact fun hentered => hk (halone i k' k (hpushed k' hentered) (hpushed k hi))
  · intro i k hi k' o hmem
    exact halone i k' k (Thread.pushed_of_ran (run_share k' hrun) (mem_share_thread hrun hmem)) hi
  · intro i k p func hp hf
    rw [← countP_share k i hrun]
    exact Thread.run_once (hne' k) (run_share k hrun) hp hf

/-- The thread `IO`. -/
def ioKey : Key := ⟨2, by decide⟩

/-- A call of `postTask` for the thread `k` posts the task `i` and queues it. -/
def posted (i : Nat) (thread : ListTask) (k : Key) : List (Action Unit) :=
  .post i thread (.postTask ()) 0 :: List.replicate 3 (.thread k (.push i 0))

/-- The worker of `k` takes the one task in its queue and runs it. -/
def ran (i : Nat) (k : Key) : List (Action Unit) :=
  List.replicate 4 (.thread k (.worker 0)) ++ [.thread k (.functorEnds i (.returns .FINISH))]

/-- A task for `IO` is posted and queued. The worker of `FHT_MAIN` enters its loop, and that of `IO`
runs the task. -/
def postToIo : List (Action Unit) :=
  posted 0 .io ioKey ++ .thread ⟨0, by decide⟩ (.worker 0) :: ran 0 ioKey

theorem conserved_postToIo :
    ∃ s, step.run init postToIo = some s ∧ (s.threads ioKey).retired = [0] ∧
      Conserved postToIo s :=
  ⟨_, rfl, rfl, conserved (by simp [postToIo, posted, ran]) rfl⟩

end Manager

end FHT.Task
