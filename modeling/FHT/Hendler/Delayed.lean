import FHT.Hendler.FhtMain

/-!
# A delayed lookup of what was registered before

A task of `FHT_MAIN` registers a handler and then posts a task that looks it up. The update, the
loop task and the second task wait in one queue. If the second is due when it is first examined,
the update has run before it, and the loop task has not run since; if it goes back once, it goes
behind the loop task, which publishes the handler before it is examined again.

## Main definitions

- `Registration` — a handler to be registered, in one of the two tables
- `FhtMain.RegistersThenPosts` — one task registers a handler and then posts another
- `FhtMain.NotDueAtFirst` — the other goes back at its first examination

## Main results

- `FhtMain.delayed_lookup_iff` — the lookup finds the handler exactly if the task goes back once
-/

namespace FHT.Hendler

open FHT.Task

variable {U L F : Type*}

/-- A handler under an id, with the pointer that the call makes for it. -/
inductive Registration (U L : Type*)
  | unique (id : Str) (prt : U)
  | list (id : Str) (prt : L)

/-- The table and the id that a call is about. -/
def Call.target : Call U L → Str ⊕ Str
  | addUniqueHendler id _ | removeUniqueHendler id => .inl id
  | addHendler id _ | removeHendler id => .inr id

def updateTarget : Update U ⊕ Update L → Str ⊕ Str
  | .inl (.emplace id _) | .inl (.erase id) => .inl id
  | .inr (.emplace id _) | .inr (.erase id) => .inr id

namespace Registration

/-- The call that registers it. -/
def call : Registration U L → Call U L
  | unique id prt => .addUniqueHendler id prt
  | list id prt => .addHendler id prt

def update : Registration U L → Update U ⊕ Update L
  | unique id prt => .inl (.emplace id prt)
  | list id prt => .inr (.emplace id prt)

def prt : Registration U L → U ⊕ L
  | unique _ prt => .inl prt
  | list _ prt => .inr prt

/-- What the working map holds under the id. -/
def working (w : FhtMain U L F) : Registration U L → Option (U ⊕ L)
  | unique id _ => w.mapHendler.map[id]?.map .inl
  | list id _ => w.mapList.map[id]?.map .inr

/-- What the published copy holds under the id. -/
def published (w : FhtMain U L F) : Registration U L → Option (U ⊕ L)
  | unique id _ => (w.getUniqueHendler id).map .inl
  | list id _ => (w.getHendler id).map .inr

/-- A lookup finds the handler. -/
def Found (w : FhtMain U L F) : Registration U L → Prop
  | unique id prt => w.getUniqueHendler id = some prt
  | list id prt => w.getHendler id = some prt

theorem found_iff (r : Registration U L) (w : FhtMain U L F) :
    r.Found w ↔ r.published w = some r.prt := by
  cases r <;> simp [Found, published, prt]

theorem target_call (r : Registration U L) : r.call.target = updateTarget r.update := by
  cases r <;> rfl

/-- Whether a job leaves the id alone. -/
def SparedBy (r : Registration U L) : Job U L F → Prop
  | .publish => False
  | .update u => updateTarget u ≠ updateTarget r.update
  | .user _ => True

theorem decides_call {r : Registration U L} {w : FhtMain U L F} (h : r.published w = none) :
    w.decides r.call = some r.update := by
  cases r with
  | unique id prt | list id prt =>
    have hnone := Option.map_eq_none_iff.mp h
    simp only [FhtMain.getUniqueHendler, FhtMain.getHendler, Published.get] at hnone
    simp [FhtMain.decides, call, update, Published.add, StdMap.mem_iff_getElem?_ne_none, hnone]

section Publish

variable [DecidableEq U] [DecidableEq L]

theorem working_publish (r : Registration U L) (w : FhtMain U L F) :
    r.working (w.execute .publish) = r.working w := by
  cases r <;> simp [working, FhtMain.execute]

theorem published_publish (r : Registration U L) (w : FhtMain U L F) :
    r.published (w.execute .publish) = r.working w := by
  cases r <;>
    simp [working, published, FhtMain.execute, FhtMain.getUniqueHendler, FhtMain.getHendler,
      Published.get]

theorem working_update (r : Registration U L) (w : FhtMain U L F) :
    r.working (w.execute (.update r.update)) = (r.working w).or (some r.prt) := by
  cases r with
  | unique id a =>
    simp only [working, update, FhtMain.execute, Update.run, StdMap.getElem?_emplace]
    cases w.mapHendler.map[id]? <;> rfl
  | list id a =>
    simp only [working, update, FhtMain.execute, Update.run, StdMap.getElem?_emplace]
    cases w.mapList.map[id]? <;> rfl

theorem published_update (r : Registration U L) (w : FhtMain U L F) (u : Update U ⊕ Update L) :
    r.published (w.execute (.update u)) = r.published w := by
  cases r <;> rcases u with u | u <;> rfl

omit [DecidableEq U] [DecidableEq L] in
/-- An update of another id. -/
theorem getElem?_run_of_ne {V : Type*} {u : Update V} {id : Str} (t : StdMap Str V)
    (hemplace : ∀ id' prt, u = .emplace id' prt → id' ≠ id)
    (herase : ∀ id', u = .erase id' → id' ≠ id) : (u.run t)[id]? = t[id]? := by
  cases u with
  | emplace id' prt =>
    rw [Update.run, StdMap.getElem?_emplace, if_neg (Ne.symm (hemplace id' prt rfl))]
  | erase id' => rw [Update.run, StdMap.getElem?_erase, if_neg (Ne.symm (herase id' rfl))]

theorem execute_of_sparedBy {r : Registration U L} {w : FhtMain U L F} {job : Job U L F}
    (h : r.SparedBy job) : r.working (w.execute job) = r.working w ∧
      r.published (w.execute job) = r.published w := by
  cases job with
  | publish => exact absurd h id
  | user => exact ⟨rfl, rfl⟩
  | update u =>
    refine ⟨?_, published_update r w u⟩
    have htarget : updateTarget u ≠ updateTarget r.update := h
    rcases r with ⟨id, a⟩ | ⟨id, a⟩ <;> rcases u with u | u
    · refine congrArg (Option.map Sum.inl) (getElem?_run_of_ne _ ?_ ?_)
      · rintro id' a' rfl rfl
        exact htarget rfl
      · rintro id' rfl rfl
        exact htarget rfl
    · rfl
    · rfl
    · refine congrArg (Option.map Sum.inr) (getElem?_run_of_ne _ ?_ ?_)
      · rintro id' a' rfl rfl
        exact htarget rfl
      · rintro id' rfl rfl
        exact htarget rfl

/-- What a step does to the entries of the id. -/
inductive Effect (r : Registration U L) (w : FhtMain U L F) (a : FhtMain.Action U L F)
    (w' : FhtMain U L F) : Prop
  | ends {b t job o} (ha : a = .functorEnds t.id o) (hw : w.thread.worker = .running b t)
      (hf : t.function.func = some job) (hworking : r.working w' = r.working (w.execute job))
      (hpublished : r.published w' = r.published (w.execute job))
  | swap {b t} (hw : w.thread.worker = .running b t) (hf : t.function.func = some .publish)
      (hworking : r.working w' = r.working w)
      (hpublished : r.published w' = r.published w ∨ r.published w' = r.working w)
  | rest (hworking : r.working w' = r.working w) (hpublished : r.published w' = r.published w)

theorem effect {w w' : FhtMain U L F} {a : FhtMain.Action U L F} (r : Registration U L)
    (h : w.Moves a w') : Effect r w a w' := by
  cases h with
  | construct _ _ hw' | post _ _ hw' | user _ _ hw' | beside _ _ hw' =>
    refine .rest ?_ ?_
    all_goals
      rw [hw']
      cases r <;> rfl
  | begin => exact .rest (by cases r <;> rfl) (by cases r <;> rfl)
  | worker _ hw' =>
    refine .rest ?_ ?_
    all_goals
      rw [hw', FhtMain.examine]
      split <;> cases r <;> rfl
  | swap hw hf =>
    refine .swap hw hf (by cases r <;> simp [working]) ?_
    cases r with
    | unique id a =>
      exact .inr (by simp [working, published, FhtMain.getUniqueHendler, Published.get])
    | list id a => exact .inl rfl
  | ends hw hf _ _ hw' =>
    refine .ends rfl hw hf ?_ ?_
    all_goals
      rw [hw']
      cases r <;> rfl

end Publish

end Registration

namespace FhtMain

theorem updateTarget_decides {w : FhtMain U L F} {c : Call U L} {u : Update U ⊕ Update L}
    (h : w.decides c = some u) : updateTarget u = c.target := by
  cases c with
  | addUniqueHendler id prt | addHendler id prt =>
    obtain ⟨v, hv, rfl⟩ := Option.map_eq_some_iff.mp h
    rw [Published.add] at hv
    split at hv
    · cases hv
    · obtain rfl := Option.some.inj hv
      rfl
  | removeUniqueHendler id | removeHendler id =>
    obtain ⟨v, hv, rfl⟩ := Option.map_eq_some_iff.mp h
    rw [Published.remove] at hv
    split at hv
    · obtain rfl := Option.some.inj hv
      rfl
    · cases hv

/-- No other call is about to change what the tables hold under the id. -/
def OthersSpare (r : Registration U L) (e : Nat) (w : FhtMain U L F) : Prop :=
  ∀ i u, i ≠ e → w.calls i = some (some u) → i ∉ w.thread.retired →
    updateTarget u ≠ updateTarget r.update

/-- The call begins on another id. -/
def CallSpares (r : Registration U L) (a : Action U L F) : Prop :=
  ∀ i c, a = .begin i c → c.target ≠ r.call.target

section Publish

variable [DecidableEq U] [DecidableEq L]

theorem OthersSpare.step {r : Registration U L} {e : Nat} {w w' : FhtMain U L F}
    {a : Action U L F} (h : OthersSpare r e w) (hw : w.Sound) (hs : FhtMain.step w a = some w')
    (ha : CallSpares r a) : OthersSpare r e w' := by
  have hmoves := step_moves hs
  have hretired : ∀ i, i ∉ w'.thread.retired → i ∉ w.thread.retired := by
    intro i hi hret
    rcases hmoves.thread_step hw with heq | ⟨a', hs', -⟩
    · exact hi (heq ▸ hret)
    · exact hi ((Thread.step_moves hs').retired_subset hret)
  intro i u hie hc hret
  rcases hmoves.calls_new hc with hc | ⟨c, rfl, hdecides⟩
  · exact h i u hie hc (hretired i hret)
  · rw [updateTarget_decides hdecides.symm, ← r.target_call]
    exact ha i c rfl

/-- Call `e` has begun, and is the only one on its id; `p` is the loop task. -/
structure Called (r : Registration U L) (e p : Nat) (w : FhtMain U L F) : Prop where
  sound : w.Sound
  publisher : w.publisher = some p
  loop : w.thread.pushes p = some ⟨.postLoopTask .publish, 0, .returned⟩
  call : w.calls e = some (some r.update)
  others : OthersSpare r e w

/-- The call has posted its update, and task `g` has been posted. -/
structure Scene (r : Registration U L) (e p g : Nat) (w : FhtMain U L F) : Prop
    extends Called r e p w where
  update : w.thread.pushes e = some ⟨.postTask (.update r.update), 0, .returned⟩
  task : ∃ func ms, w.thread.pushes g = some ⟨.postTask (.user func), ms, .returned⟩

variable {r : Registration U L} {e p g : Nat} {w w' : FhtMain U L F} {a : Action U L F}

theorem Called.step (h : Called r e p w) (hs : FhtMain.step w a = some w')
    (ha : CallSpares r a) : Called r e p w' := by
  obtain ⟨hpub, hcalls⟩ := (step_moves hs).publisher_calls
  refine ⟨h.sound.step hs, ?_, h.sound.pushes_returned hs h.loop, ?_,
    h.others.step h.sound hs ha⟩
  · rcases hpub with hpub | ⟨hnone, -⟩
    · exact hpub.trans h.publisher
    · cases hnone.symm.trans h.publisher
  · rcases hcalls e with hc | ⟨hnone, -⟩
    · exact hc.trans h.call
    · cases hnone.symm.trans h.call

theorem Scene.step (h : Scene r e p g w) (hs : FhtMain.step w a = some w')
    (ha : CallSpares r a) : Scene r e p g w' := by
  obtain ⟨func, ms, htask⟩ := h.task
  exact ⟨h.toCalled.step hs ha, h.sound.pushes_returned hs h.update,
    func, ms, h.sound.pushes_returned hs htask⟩

omit [DecidableEq U] [DecidableEq L] in
theorem Scene.ne (h : Scene r e p g w) : e ≠ p ∧ e ≠ g ∧ p ≠ g := by
  obtain ⟨func, ms, htask⟩ := h.task
  refine ⟨?_, ?_, ?_⟩
  · rintro rfl
    cases h.update.symm.trans h.loop
  · rintro rfl
    cases h.update.symm.trans htask
  · rintro rfl
    cases h.loop.symm.trans htask

omit [DecidableEq U] [DecidableEq L] in
/-- What the functor of a task that ends has done to the tables. -/
theorem Scene.job_cases (h : Scene r e p g w) {b : Batch} {t : Tuple (Job U L F)}
    {job : Job U L F} (hw : w.thread.worker = .running b t)
    (hf : t.function.func = some job) :
    t.id = p ∧ job = .publish ∨ t.id = e ∧ job = .update r.update ∨
      t.id ≠ p ∧ t.id ≠ e ∧ r.SparedBy job := by
  obtain ⟨q, hq, hqf, hret⟩ := h.sound.running_push hw hf
  by_cases htp : t.id = p
  · obtain rfl := Option.some.inj ((htp ▸ h.loop).symm.trans hq)
    exact .inl ⟨htp, (Option.some.inj hqf).symm⟩
  · by_cases hte : t.id = e
    · obtain rfl := Option.some.inj ((hte ▸ h.update).symm.trans hq)
      exact .inr (.inl ⟨hte, (Option.some.inj hqf).symm⟩)
    · refine .inr (.inr ⟨htp, hte, ?_⟩)
      have hasked := h.sound.asked t.id q job hq hqf
      cases job with
      | publish => exact absurd (Option.some.inj (hasked.symm.trans h.publisher)) htp
      | update u => exact h.others t.id u hte hasked hret
      | user => trivial

/-- A task that was punctual stays so. -/
theorem Scene.punctual (h : Scene r e p g w) {i k : Nat} {q : Push (Job U L F)}
    (hi : w.thread.pushes i = some q) (hret : q.stage = .returned)
    (hpunctual : w.thread.Punctual i k) (hs : FhtMain.step w a = some w') (hclock : Timely w a w') :
    w'.thread.Punctual i k := by
  rcases (step_moves hs).thread_step h.sound with heq | ⟨a', hs', hnow, -⟩
  · exact heq ▸ hpunctual
  · refine hpunctual.step h.sound.thread.fits hs' h.sound.thread.nodup ?_ ?_
    · intro p ts hp hst
      obtain rfl := Option.some.inj (hi.symm.trans hp)
      cases hret.symm.trans hst
    · intro now ha t ht _
      exact hclock now (hnow ▸ ha) t ht

/-- The update has still to be run, and task `g` comes after it with no loop task in between. -/
structure Waiting (r : Registration U L) (e p g : Nat) (w : FhtMain U L F) : Prop where
  working : r.working w = none
  published : r.published w = none
  unexamined : g ∉ w.examined
  awaits : w.thread.Awaits e g
  apart : w.thread.Apart e p g
  punctual : w.thread.Punctual e e
  loopPunctual : w.thread.Punctual p g

/-- The handler is registered and not yet published, and `g` is examined before the loop task
is run. -/
structure Unpublished (r : Registration U L) (p g : Nat) (w : FhtMain U L F) : Prop where
  working : r.working w = some r.prt
  published : r.published w = none
  unexamined : g ∉ w.examined
  precedes : w.thread.Precedes g p
  loopPunctual : w.thread.Punctual p g

/-- The loop task is run before `g` is. -/
structure PublishedNext (r : Registration U L) (p g : Nat) (w : FhtMain U L F) : Prop where
  working : r.working w = some r.prt
  awaits : w.thread.Awaits p g
  punctual : w.thread.Punctual p p

/-- The handler is published. -/
structure Visible (r : Registration U L) (w : FhtMain U L F) : Prop where
  working : r.working w = some r.prt
  published : r.published w = some r.prt

/-- Of all that is run only the update changes the working map under the id. -/
theorem Scene.working_step (h : Scene r e p g w) (hs : FhtMain.step w a = some w') :
    r.working w' = r.working w ∨
      (∃ o, a = .functorEnds e o) ∧ r.working w' = (r.working w).or (some r.prt) := by
  cases r.effect (step_moves hs) with
  | ends ha hw hf hworking =>
    rcases h.job_cases hw hf with ⟨-, rfl⟩ | ⟨rfl, rfl⟩ | ⟨-, -, hspared⟩
    · exact .inl (hworking.trans (r.working_publish w))
    · exact .inr ⟨⟨_, ha⟩, hworking.trans (r.working_update w)⟩
    · exact .inl (hworking.trans (r.execute_of_sparedBy hspared).1)
  | swap _ _ hworking | rest hworking => exact .inl hworking

/-- Only while the loop task is run the published copy may change under the id. -/
theorem Scene.published_step (h : Scene r e p g w) (hs : FhtMain.step w a = some w') :
    r.published w' = r.published w ∨
      w.thread.worker.isRunning p = true ∧ r.published w' = r.working w := by
  have hrunning : ∀ {b t}, w.thread.worker = .running b t → t.id = p →
      w.thread.worker.isRunning p = true := by
    intro b t hw htp
    rw [hw]
    exact decide_eq_true htp
  cases r.effect (step_moves hs) with
  | ends _ hw hf _ hpublished =>
    rcases h.job_cases hw hf with ⟨htp, rfl⟩ | ⟨-, rfl⟩ | ⟨-, -, hspared⟩
    · exact .inr ⟨hrunning hw htp, hpublished.trans (r.published_publish w)⟩
    · exact .inl (hpublished.trans (r.published_update w _))
    · exact .inl (hpublished.trans (r.execute_of_sparedBy hspared).2)
  | swap hw hf _ hpublished =>
    rcases hpublished with hpubl | hpubl
    · exact .inl hpubl
    · rcases h.job_cases hw hf with ⟨htp, -⟩ | ⟨-, hjob⟩ | ⟨-, -, hspared⟩
      · exact .inr ⟨hrunning hw htp, hpubl⟩
      · cases hjob
      · exact absurd hspared id
  | rest _ hpublished => exact .inl hpublished

/-- When the loop task ends it has published what is registered. -/
theorem Scene.published_of_ends (h : Scene r e p g w) {o : Outcome}
    (hs : FhtMain.step w (.functorEnds p o) = some w') : r.published w' = r.working w := by
  obtain ⟨b, t, job, hw, htp, hf, -, hw'⟩ := ends_of_step hs
  rcases h.job_cases hw hf with ⟨-, rfl⟩ | ⟨hte, -⟩ | ⟨hne, -⟩
  · rw [← r.published_publish w, hw']
    cases r <;> rfl
  · exact absurd (hte.symm.trans htp) h.ne.1
  · exact absurd htp hne

/-- When the update ends, the handler is registered unless there was one before. -/
theorem Scene.working_of_ends (h : Scene r e p g w) {o : Outcome}
    (hs : FhtMain.step w (.functorEnds e o) = some w') :
    r.working w' = (r.working w).or (some r.prt) := by
  obtain ⟨b, t, job, hw, hte, hf, -, hw'⟩ := ends_of_step hs
  rcases h.job_cases hw hf with ⟨htp, -⟩ | ⟨-, rfl⟩ | ⟨-, hne, -⟩
  · exact absurd (hte.symm.trans htp) h.ne.1
  · rw [← r.working_update w, hw']
    cases r <;> rfl
  · exact absurd hte hne

theorem Scene.registered_step (h : Scene r e p g w) (hs : FhtMain.step w a = some w')
    (hworking : r.working w = some r.prt) : r.working w' = some r.prt := by
  rcases h.working_step hs with hw | ⟨-, hw⟩
  · exact hw.trans hworking
  · rw [hw, hworking]
    rfl

theorem Visible.step (hv : Visible r w) (h : Scene r e p g w)
    (hs : FhtMain.step w a = some w') : Visible r w' := by
  refine ⟨h.registered_step hs hv.working, ?_⟩
  rcases h.published_step hs with hpubl | ⟨-, hpubl⟩
  · exact hpubl.trans hv.published
  · exact hpubl.trans hv.working

omit [DecidableEq U] [DecidableEq L] in
theorem not_stamped {i : Nat} {q : Push (Job U L F)} (hi : w.thread.pushes i = some q)
    (hret : q.stage = .returned) :
    ∀ q' ts, w.thread.pushes i = some q' → q'.stage ≠ .stamped ts := by
  intro q' ts hq' hst
  obtain rfl := Option.some.inj (hi.symm.trans hq')
  cases hret.symm.trans hst

/-- The worker examines task `g` in this step. -/
def Examines (g : Nat) (w : FhtMain U L F) (a : Action U L F) : Prop :=
  ∃ now b t, a = .worker now ∧ w.thread.worker = .examine b t ∧ t.id = g

theorem unexamined_step (hs : FhtMain.step w a = some w') (hg : g ∉ w.examined)
    (ha : ¬ Examines g w a) : g ∉ w'.examined := by
  rcases (step_moves hs).examined_cases with ⟨heq, -⟩ | ⟨now, b, t, rfl, hw, heq⟩
  · exact heq ▸ hg
  · rw [heq]
    intro hmem
    rcases List.mem_append.mp hmem with hmem | hmem
    · exact hg hmem
    · exact ha ⟨now, b, t, rfl, hw, (List.mem_singleton.mp hmem).symm⟩

theorem Examines.mem_examined (h : Examines g w a) (hs : FhtMain.step w a = some w') :
    g ∈ w'.examined := by
  obtain ⟨now, b, t, rfl, hw, rfl⟩ := h
  rcases (step_moves hs).examined_cases with ⟨-, hnot⟩ | ⟨_, _, t', -, hw', heq⟩
  · exact absurd hw (hnot now b t rfl)
  · obtain ⟨-, rfl⟩ := Worker.examine.inj (hw.symm.trans hw')
    rw [heq]
    exact List.mem_append_right _ (List.mem_singleton.mpr rfl)

/-- A task without a delay keeps its turn until its functor ends. -/
theorem Scene.awaits_step (h : Scene r e p g w) (hs : FhtMain.step w a = some w') {i j : Nat}
    {q : Push (Job U L F)} (hi : w.thread.pushes i = some q) (hret : q.stage = .returned)
    (hms : q.ms = 0) (hf : q.function ≠ .empty) (hpunctual : w.thread.Punctual i i)
    (hawaits : w.thread.Awaits i j) :
    w'.thread.Awaits i j ∨ ∃ o, a = .functorEnds i o := by
  rcases (step_moves hs).thread_step h.sound with heq | ⟨a', hs', -, -, -, hends⟩
  · exact .inl (heq ▸ hawaits)
  · have htask : ∀ t ∈ w.thread.tuples, t.id = i → t.ms ≤ 0 ∧ t.function ≠ .empty := by
      intro t ht hti
      obtain ⟨htf, htms, -⟩ := h.sound.thread.function ht (hti ▸ hi)
      exact ⟨by omega, htf ▸ hf⟩
    rcases hawaits.step (Thread.step_serves h.sound.thread.fits hs') h.sound.thread.nodup
      (not_stamped hi hret) hpunctual htask with hawaits | ⟨o, ha⟩
    · exact .inl hawaits
    · exact .inr ⟨o, (hends i o ha).1⟩

/-- While the update is still to be run, every step leaves it so or runs it. -/
theorem Waiting.step (hwait : Waiting r e p g w) (h : Scene r e p g w)
    (hs : FhtMain.step w a = some w') (hclock : Timely w a w') :
    Waiting r e p g w' ∨ Unpublished r p g w' := by
  obtain ⟨hep, heg, hpg⟩ := h.ne
  obtain ⟨func, ms, htask⟩ := h.task
  have hunexamined : g ∉ w'.examined := by
    refine unexamined_step hs hwait.unexamined ?_
    rintro ⟨now, b, t, -, hw, htg⟩
    exact hwait.awaits.not_examine heg hw htg
  have hpublished : r.published w' = none := by
    rcases h.published_step hs with hpubl | ⟨-, hpubl⟩
    · exact hpubl.trans hwait.published
    · exact hpubl.trans hwait.working
  have hloop := h.punctual h.loop rfl hwait.loopPunctual hs hclock
  by_cases hend : ∃ o, a = .functorEnds e o
  · -- the handler is registered, and what came before `g` still does
    obtain ⟨o, rfl⟩ := hend
    obtain ⟨b, t, -, hw, hte, -, hs', -⟩ := ends_of_step hs
    have hserves := Thread.step_serves h.sound.thread.fits hs'
    have hrunning : w.thread.worker.isRunning e = true := by
      rw [hw]
      exact decide_eq_true hte
    have hall := hserves.all_of_functorEnds
    have hworking := h.working_of_ends hs
    rw [hwait.working] at hworking
    refine .inr ⟨hworking, hpublished, hunexamined, ⟨?_, ?_, ?_⟩, hloop⟩
    · exact hall ▸ hwait.apart.mem
    · exact hall ▸ hwait.apart.order (.inl hrunning)
    · by_contra hp
      rcases hserves.isRunning_after (by simpa using hp) with hp | ⟨_, _, _, ha, -⟩
      · rw [hw] at hp
        exact hep (hte.symm.trans (of_decide_eq_true hp))
      · cases ha
  · have hworking : r.working w' = none := by
      rcases h.working_step hs with hw | ⟨ha, -⟩
      · exact hw.trans hwait.working
      · exact absurd ha hend
    have hawaits := (h.awaits_step hs h.update rfl rfl (by simp) hwait.punctual
      hwait.awaits).resolve_right hend
    refine .inl ⟨hworking, hpublished, hunexamined, hawaits, ?_,
      h.punctual h.update rfl hwait.punctual hs hclock, hloop⟩
    rcases (step_moves hs).thread_step h.sound with heq | ⟨a', hs', -⟩
    · exact heq ▸ hwait.apart
    · exact hwait.apart.step hwait.awaits heg (Thread.step_serves h.sound.thread.fits hs')
        h.sound.thread.nodup (not_stamped h.loop rfl) (not_stamped htask rfl)

/-- As long as task `g` is not examined, the handler stays unpublished. -/
theorem Unpublished.step (hun : Unpublished r p g w) (h : Scene r e p g w)
    (hs : FhtMain.step w a = some w') (hclock : Timely w a w') (ha : ¬ Examines g w a) :
    Unpublished r p g w' := by
  obtain ⟨func, ms, htask⟩ := h.task
  refine ⟨h.registered_step hs hun.working, ?_, unexamined_step hs hun.unexamined ha, ?_,
    h.punctual h.loop rfl hun.loopPunctual hs hclock⟩
  · rcases h.published_step hs with hpubl | ⟨hrun, -⟩
    · exact hpubl.trans hun.published
    · cases hrun.symm.trans hun.precedes.running
  · rcases (step_moves hs).thread_step h.sound with heq | ⟨a', hs', -, hworker, -⟩
    · exact heq ▸ hun.precedes
    · rcases hun.precedes.step (Thread.step_serves h.sound.thread.fits hs') h.sound.thread.nodup
        (not_stamped htask rfl) with hprecedes | ⟨now, b, t, ha', hw, htg, -⟩
      · exact hprecedes
      · exact absurd ⟨now, b, t, hworker now ha', hw, htg⟩ ha

/-- Once task `g` has gone back, the loop task is run before it. -/
theorem PublishedNext.step (hnext : PublishedNext r p g w) (h : Scene r e p g w)
    (hs : FhtMain.step w a = some w') (hclock : Timely w a w') :
    PublishedNext r p g w' ∨ Visible r w' := by
  have hworking := h.registered_step hs hnext.working
  rcases h.awaits_step hs h.loop rfl rfl (by simp) hnext.punctual hnext.awaits with
    hawaits | ⟨o, rfl⟩
  · exact .inl ⟨hworking, hawaits, h.punctual h.loop rfl hnext.punctual hs hclock⟩
  · exact .inr ⟨hworking, (h.published_of_ends hs).trans hnext.working⟩

/-- At its examination task `g` goes back behind the loop task if it is not yet due, and else it
is run before the handler is published. -/
theorem Unpublished.examined (hun : Unpublished r p g w) (h : Scene r e p g w) {now : Int}
    {b : Batch} {t : Tuple (Job U L F)} (hs : FhtMain.step w (.worker now) = some w')
    (hclock : Timely w (.worker now) w') (hw : w.thread.worker = .examine b t) (htg : t.id = g) :
    difftime b.realtime t.ts < t.ms ∧ PublishedNext r p g w' ∨
      ¬ difftime b.realtime t.ts < t.ms ∧ w'.thread.worker.isRunning g = true ∧
        r.published w' = none := by
  obtain ⟨func, ms, htask⟩ := h.task
  have hs' := worker_of_step hs
  rcases Thread.step_of_examine hs' hw with ⟨hd, -⟩ | ⟨hd, hempty | hrun⟩
  · refine .inl ⟨hd, h.registered_step hs hun.working, ?_, ?_⟩
    · have hentered : w.thread.entered p = true := by simp [Thread.entered, h.loop, Push.entered]
      have hret := (h.sound.publisher p h.publisher).1
      rw [← htg]
      exact .inl (Thread.precedes_of_early h.sound.thread hs' hw hd hentered hret
        (htg ▸ h.ne.2.2.symm))
    · exact h.punctual h.loop rfl (hun.loopPunctual.of_examine hw htg) hs hclock
  · have ht := Thread.mem_tuples_of_hand (by rw [hw]; rfl)
    obtain ⟨hf, -⟩ := h.sound.thread.function ht (htg ▸ htask)
    cases hf.symm.trans hempty
  · refine .inr ⟨hd, htg ▸ hrun, ?_⟩
    rcases h.published_step hs with hpubl | ⟨hp, -⟩
    · exact hpubl.trans hun.published
    · rw [hw] at hp
      cases hp

/-- While the functor of task `x` goes on, the batch does not come to what is behind it. -/
theorem Sound.of_running (h : w.Sound) (hs : FhtMain.step w a = some w') {x : Nat}
    (hx : w.thread.worker.isRunning x = true) (hends : ∀ i o, a ≠ .functorEnds i o) :
    w'.thread.worker.isRunning x = true ∧ (∀ i, w.thread.Behind i → w'.thread.Behind i) ∧
      ∀ i j q, w.thread.pushes j = some q → q.stage = .returned →
        ¬ Before i j w.thread.line.all → ¬ Before i j w'.thread.line.all := by
  rcases (step_moves hs).thread_step h with heq | ⟨a', hs', -, -, -, hends'⟩
  · rw [heq]
    exact ⟨hx, fun _ => id, fun _ _ _ _ _ => id⟩
  · obtain ⟨hx', hbehind, horder⟩ := h.thread.of_running hs' hx
      fun i o ha => hends i o (hends' i o ha).1
    exact ⟨hx', hbehind, fun i j q hj hret => horder i j (not_stamped hj hret)⟩

/-- No handler is registered under the id, and no call is about to change that. -/
structure Free (r : Registration U L) (w : FhtMain U L F) : Prop where
  working : r.working w = none
  published : r.published w = none
  calls : ∀ i u, w.calls i = some (some u) → i ∉ w.thread.retired →
    updateTarget u ≠ updateTarget r.update

/-- Task `x` has begun call `e` and goes on; no handler is registered yet, and the loop task does
not come after the update. -/
structure Posting (r : Registration U L) (e p x : Nat) (w : FhtMain U L F) : Prop
    extends Called r e p w where
  running : w.thread.worker.isRunning x = true
  working : r.working w = none
  published : r.published w = none
  ne : x ≠ e
  behind : w.thread.Behind e
  order : ¬ Before e p w.thread.line.all

omit [DecidableEq U] [DecidableEq L] in
theorem ne_of_running {x i : Nat} (h : w.Sound) (hx : w.thread.worker.isRunning x = true)
    (hi : w.thread.pushes i = none) : x ≠ i := by
  rintro rfl
  obtain ⟨q, hq⟩ := h.examined x (h.running x hx)
  cases hi.symm.trans hq

theorem posting_of_begin {x : Nat} (h : w.Sound) (hx : w.thread.worker.isRunning x = true)
    (hfree : Free r w) (hs : FhtMain.step w (.begin e r.call) = some w') :
    ∃ p, Posting r e p x w' := by
  have hsound := h.step hs
  cases step_moves hs with
  | beside ha => cases ha
  | @begin _ _ hc hi hp =>
    obtain ⟨p, q, hpub, hq, hret⟩ := hc
    obtain ⟨stage, hstage⟩ := (h.publisher p hpub).2
    obtain rfl := Option.some.inj (hq.symm.trans hstage)
    obtain rfl : stage = .returned := hret
    obtain ⟨hbehind, hall⟩ := h.thread.behind hp
    refine ⟨p, ⟨hsound, hpub, hq, ?_, ?_⟩, hx, ?_, ?_, ne_of_running h hx hp, hbehind,
      fun hbefore => hall hbefore.mem.1⟩
    · rw [← Registration.decides_call hfree.published]
      exact Function.update_self ..
    · intro i u hie hc hret
      exact hfree.calls i u ((Function.update_of_ne hie ..).symm.trans hc) hret
    · cases r <;> exact hfree.working
    · cases r <;> exact hfree.published

theorem Posting.step {x : Nat} (h : Posting r e p x w) (hs : FhtMain.step w a = some w')
    (hends : ∀ i o, a ≠ .functorEnds i o) (ha : CallSpares r a) : Posting r e p x w' := by
  obtain ⟨hx, hbehind, horder⟩ := h.sound.of_running hs h.running hends
  refine ⟨h.toCalled.step hs ha, hx, ?_, ?_, h.ne, hbehind e h.behind,
    horder e p _ h.loop rfl h.order⟩
  · cases r.effect (step_moves hs) with
    | ends ha => exact absurd ha (hends _ _)
    | swap _ _ hworking | rest hworking => exact hworking.trans h.working
  · cases r.effect (step_moves hs) with
    | ends ha => exact absurd ha (hends _ _)
    | swap _ _ _ hpublished =>
      rcases hpublished with hpubl | hpubl
      · exact hpubl.trans h.published
      · exact hpubl.trans h.working
    | rest _ hpublished => exact hpublished.trans h.published

/-- Task `x` has posted the update, and now task `g`. -/
structure PostingNext (r : Registration U L) (e p x g : Nat) (w : FhtMain U L F) : Prop
    extends Posting r e p x w where
  update : w.thread.pushes e = some ⟨.postTask (.update r.update), 0, .returned⟩
  task : ∃ func ms stage, w.thread.pushes g = some ⟨.postTask (.user func), ms, stage⟩
  unexamined : g ∉ w.examined
  ne_next : x ≠ g
  behind_next : w.thread.Behind g
  order_next : ¬ Before g e w.thread.line.all

theorem Posting.next {x ms func} (h : Posting r e p x w) (he : w.returned e)
    (hs : FhtMain.step w (.user g (.postTask func) ms) = some w') :
    PostingNext r e p x g w' := by
  have hspares : CallSpares r (.user g (.postTask func) ms : Action U L F) := by
    rintro i c ⟨⟩
  have hposting := h.step hs (by simp) hspares
  obtain ⟨⟨f, m, stage⟩, hq, hret⟩ := he
  obtain ⟨u, hu, rfl, rfl⟩ := h.sound.posted e _ _ h.call hq
  obtain rfl := Option.some.inj hu
  obtain rfl : stage = .returned := hret
  cases step_moves hs with
  | beside ha => cases ha
  | user _ hs' hw' =>
    obtain ⟨hg, heq⟩ := Thread.eq_of_begin hs'
    obtain ⟨hbehind, hall⟩ := h.sound.thread.behind hg
    obtain ⟨hx, hbehind', horder⟩ := h.sound.of_running hs h.running (by simp)
    refine ⟨hposting, h.sound.pushes_returned hs hq, ?_, ?_, ?_, hbehind' g hbehind,
      horder g e _ hq rfl fun hbefore => hall hbefore.mem.1⟩
    · refine ⟨func, ms, .begun, ?_⟩
      rw [heq]
      exact Function.update_self ..
    · rw [hw']
      intro hexamined
      obtain ⟨q, hq⟩ := h.sound.examined g hexamined
      cases hg.symm.trans hq
    · exact ne_of_running h.sound h.running hg

theorem PostingNext.step {x : Nat} (h : PostingNext r e p x g w)
    (hs : FhtMain.step w a = some w') (hends : ∀ i o, a ≠ .functorEnds i o)
    (ha : CallSpares r a) : PostingNext r e p x g w' := by
  obtain ⟨-, hbehind, horder⟩ := h.sound.of_running hs h.running hends
  refine ⟨h.toPosting.step hs hends ha, h.sound.pushes_returned hs h.update, ?_, ?_, h.ne_next,
    hbehind g h.behind_next, horder g e _ h.update rfl h.order_next⟩
  · obtain ⟨func, ms, stage, htask⟩ := h.task
    obtain ⟨⟨f, m, stage'⟩, htask', hf, -⟩ := h.sound.pushes_kept hs htask
    obtain rfl : f = .postTask (.user func) := hf
    exact ⟨func, m, stage', htask'⟩
  · refine unexamined_step hs h.unexamined ?_
    rintro ⟨now, b, t, -, hw, -⟩
    have hx := h.running
    rw [hw] at hx
    cases hx

omit [DecidableEq U] [DecidableEq L] in
/-- When both are posted, the update waits for its turn before task `g`. -/
theorem PostingNext.waiting {x : Nat} (h : PostingNext r e p x g w) (hg : w.returned g) :
    Scene r e p g w ∧ Waiting r e p g w := by
  obtain ⟨func, ms, stage, htask⟩ := h.task
  obtain ⟨q, hq, hret⟩ := hg
  obtain rfl := Option.some.inj (htask.symm.trans hq)
  obtain rfl : stage = .returned := hret
  obtain ⟨b, t, hw, htx⟩ : ∃ b t, w.thread.worker = .running b t ∧ t.id = x := by
    have hx := h.running
    cases hw : w.thread.worker with
    | running b t =>
      rw [hw] at hx
      exact ⟨b, t, rfl, of_decide_eq_true hx⟩
    | _ =>
      rw [hw] at hx
      cases hx
  have hin : w.thread.worker.inBatch = true := by rw [hw]; rfl
  have hmem : ∀ i, x ≠ i → w.thread.entered i = true → w.thread.Behind i →
      i ∈ w.thread.line.all := by
    intro i hxi hentered hbehind
    refine h.sound.thread.mem_line hentered hbehind.retired ?_ (by simp [hw])
    intro u hu
    rw [hw] at hu
    obtain rfl : t = u := Option.some.inj hu
    exact htx ▸ hxi
  have hrunning : ∀ i, x ≠ i → w.thread.worker.isRunning i = false := by
    intro i hxi
    rw [hw]
    exact decide_eq_false (htx ▸ hxi)
  have he := hmem e h.ne (by simp [Thread.entered, h.update, Push.entered]) h.behind
  have hg := hmem g h.ne_next (by simp [Thread.entered, htask, Push.entered]) h.behind_next
  refine ⟨⟨h.toCalled, h.update, func, ms, htask⟩, h.working, h.published, h.unexamined,
    .inl ⟨he, h.order_next, hrunning g h.ne_next⟩, ⟨hg, ?_⟩, ?_, ?_⟩
  · rintro (hrun | hbefore)
    · cases hrun.symm.trans (hrunning e h.ne)
    · exact absurd hbefore h.order
  · exact Thread.punctual_of_behind h.behind hin (.inl rfl)
  · exact Thread.punctual_of_behind h.behind_next hin (.inr rfl)

/-- A task of `FHT_MAIN` registers a handler in call `e` and then posts task `g` with delay `ms`,
in one run of its functor. Before the call the id is free, and no other call is on it. -/
def RegistersThenPosts (r : Registration U L) (e g : Nat) (ms : Int)
    (acts : List (Action U L F)) : Prop :=
  ∃ (before mid mid' after : List (Action U L F)) (u v w : FhtMain U L F) (x : Nat) (func : F),
    acts = before ++ .begin e r.call :: mid ++ .user g (.postTask func) ms :: mid' ++ after ∧
    step.run init before = some u ∧ u.thread.worker.isRunning x = true ∧ Free r u ∧
    step.run u (.begin e r.call :: mid) = some v ∧ v.returned e ∧
    step.run v (.user g (.postTask func) ms :: mid') = some w ∧ w.returned g ∧
    (∀ a ∈ mid ++ mid', ∀ i o, a ≠ .functorEnds i o) ∧
    ∀ a ∈ mid ++ mid' ++ after, CallSpares r a

/-- Wherever the functor of task `g` is run, the lookup finds the handler. -/
def LookupFinds (r : Registration U L) (g : Nat) (acts : List (Action U L F)) : Prop :=
  ∀ pre w, pre <+: acts → step.run init pre = some w →
    w.thread.worker.isRunning g = true → r.Found w

/-- The task that the worker examines, with the locals of its loop. -/
def examining (w : FhtMain U L F) : Option (Batch × Tuple (Job U L F)) :=
  match w.thread.worker with
  | .examine b t => some (b, t)
  | _ => none

omit [DecidableEq U] [DecidableEq L] in
theorem examining_eq_some {b : Batch} {t : Tuple (Job U L F)} :
    w.examining = some (b, t) ↔ w.thread.worker = .examine b t := by
  rw [examining]
  cases w.thread.worker <;> simp

/-- In the step, task `g` is not due if it is examined for the first time. -/
def GoesBack (g : Nat) (w : FhtMain U L F) (a : Action U L F) (_ : FhtMain U L F) : Prop :=
  g ∉ w.examined → ∀ now b t, a = .worker now → w.thread.worker = .examine b t → t.id = g →
    difftime b.realtime t.ts < t.ms

instance : Decidable (GoesBack g w a w') :=
  match a with
  | .worker now => decidable_of_iff
    (g ∉ w.examined → ∀ p ∈ w.examining, p.2.id = g →
      difftime p.1.realtime p.2.ts < p.2.ms) <| by
        constructor
        · rintro h hg _ b t - hw ht
          exact h hg (b, t) (examining_eq_some.mpr hw) ht
        · rintro h hg ⟨b, t⟩ hp ht
          exact h hg now b t rfl (examining_eq_some.mp hp) ht
  | .construct _ | .begin _ _ | .post _ | .user _ _ _ | .push _ _ | .swap | .functorEnds _ _
  | .timer | .destructor | .spurious => isTrue fun _ _ _ _ ha => nomatch ha

/-- Task `g` is not yet due when it is first examined. -/
def NotDueAtFirst (g : Nat) (acts : List (Action U L F)) : Prop :=
  step.Along (GoesBack g) init acts

instance (g : Nat) (acts : List (Action U L F)) : Decidable (NotDueAtFirst g acts) :=
  inferInstanceAs (Decidable (step.Along (GoesBack g) init acts))

/-- In the run the two are posted, and the update waits for its turn. -/
theorem RegistersThenPosts.waiting {ms : Int} {acts : List (Action U L F)}
    (h : RegistersThenPosts r e g ms acts) : ∃ posted after p w, acts = posted ++ after ∧
      step.run init posted = some w ∧ Scene r e p g w ∧ Waiting r e p g w ∧
      ∀ a ∈ after, CallSpares r a := by
  obtain ⟨before, mid, mid', after, u, v, w, x, func, rfl, hu, hx, hfree, hv, he, hw, hg, hends,
    hspares⟩ := h
  obtain ⟨u', hu', hmid⟩ := Machine.run_cons_eq_some.mp hv
  obtain ⟨v', hv', hmid'⟩ := Machine.run_cons_eq_some.mp hw
  obtain ⟨p, hposting⟩ := posting_of_begin (sound hu) hx hfree hu'
  have hmidv : Posting r e p x v := by
    refine Machine.run_history (I := fun _ v => Posting r e p x v)
      (P := fun a => (∀ i o, a ≠ .functorEnds i o) ∧ CallSpares r a)
      (fun _ _ _ _ hu ha hs => hu.step hs ha.1 ha.2) hposting ?_ hmid
    intro a ha
    exact ⟨hends a (List.mem_append_left _ ha),
      hspares a (List.mem_append_left _ (List.mem_append_left _ ha))⟩
  have hmidw : PostingNext r e p x g w := by
    refine Machine.run_history (I := fun _ v => PostingNext r e p x g v)
      (P := fun a => (∀ i o, a ≠ .functorEnds i o) ∧ CallSpares r a)
      (fun _ _ _ _ hu ha hs => hu.step hs ha.1 ha.2) (hmidv.next he hv') ?_ hmid'
    intro a ha
    exact ⟨hends a (List.mem_append_right _ ha),
      hspares a (List.mem_append_left _ (List.mem_append_right _ ha))⟩
  obtain ⟨hscene, hwaiting⟩ := hmidw.waiting hg
  refine ⟨before ++ .begin e r.call :: mid ++ .user g (.postTask func) ms :: mid', after, p, w,
    rfl, ?_, hscene, hwaiting, fun a ha => hspares a (List.mem_append_right _ ha)⟩
  rw [Machine.run_append, Machine.run_append, hu, Option.bind_some, hv, Option.bind_some, hw]

theorem examined_subset_of_run {acts : List (Action U L F)} (hrun : step.run w acts = some w') :
    w.examined ⊆ w'.examined := by
  refine Machine.run_invariant (I := fun v : FhtMain U L F => w.examined ⊆ v.examined) ?_
    (List.Subset.refl _) hrun
  intro u a v hsub hs
  rcases (step_moves hs).examined_cases with ⟨heq, -⟩ | ⟨_, _, _, -, -, heq⟩
  · exact heq ▸ hsub
  · rw [heq]
    intro i hi
    exact List.mem_append_left _ (hsub hi)

/-- Until task `g` is examined, the handler is not published. -/
theorem Waiting.run {acts : List (Action U L F)} (hwait : Waiting r e p g w)
    (h : Scene r e p g w)
    (halong : FhtMain.step.Along (fun w a w' => CallSpares r a ∧ Timely w a w') w acts)
    (hrun : FhtMain.step.run w acts = some w') :
    Scene r e p g w' ∧ (g ∈ w'.examined ∨ Waiting r e p g w' ∨ Unpublished r p g w') := by
  refine Machine.Along.history (I := fun _ v =>
    Scene r e p g v ∧ (g ∈ v.examined ∨ Waiting r e p g v ∨ Unpublished r p g v))
    ?_ ⟨h, .inr (.inl hwait)⟩ halong hrun
  rintro - u a v ⟨hu, hphase⟩ hs ⟨hspares, hclock⟩
  refine ⟨hu.step hs hspares, ?_⟩
  by_cases hg : g ∈ v.examined
  · exact .inl hg
  · rcases hphase with hexamined | hwait | hun
    · have hsub := examined_subset_of_run (Machine.run_cons_eq_some.mpr ⟨v, hs, Machine.run_nil v⟩)
      exact absurd (hsub hexamined) hg
    · exact .inr (hwait.step hu hs hclock)
    · exact .inr (.inr (hun.step hu hs hclock fun ha => hg (ha.mem_examined hs)))

/-- If task `g` goes back at its first examination, the handler is published when it is run. -/
theorem Waiting.run_goesBack {acts : List (Action U L F)} (hwait : Waiting r e p g w)
    (h : Scene r e p g w)
    (halong : FhtMain.step.Along
      (fun w a w' => CallSpares r a ∧ Timely w a w' ∧ GoesBack g w a w') w acts)
    (hrun : FhtMain.step.run w acts = some w') (hg : w'.thread.worker.isRunning g = true) :
    Visible r w' := by
  have hphase : Scene r e p g w' ∧ (Waiting r e p g w' ∨ Unpublished r p g w' ∨
      PublishedNext r p g w' ∨ Visible r w') := by
    refine Machine.Along.history (I := fun _ v => Scene r e p g v ∧ (Waiting r e p g v ∨
      Unpublished r p g v ∨ PublishedNext r p g v ∨ Visible r v))
      ?_ ⟨h, .inl hwait⟩ halong hrun
    rintro - u a v ⟨hu, hphase⟩ hs ⟨hspares, hclock, hback⟩
    refine ⟨hu.step hs hspares, ?_⟩
    rcases hphase with hwait | hun | hnext | hvisible
    · rcases hwait.step hu hs hclock with hwait | hun
      · exact .inl hwait
      · exact .inr (.inl hun)
    · by_cases ha : Examines g u a
      · obtain ⟨now, b, t, rfl, hw, htg⟩ := ha
        have hearly := hback hun.unexamined now b t rfl hw htg
        rcases hun.examined hu hs hclock hw htg with ⟨-, hnext⟩ | ⟨hdue, -⟩
        · exact .inr (.inr (.inl hnext))
        · exact absurd hearly hdue
      · exact .inr (.inl (hun.step hu hs hclock ha))
    · rcases hnext.step hu hs hclock with hnext | hvisible
      · exact .inr (.inr (.inl hnext))
      · exact .inr (.inr (.inr hvisible))
    · exact .inr (.inr (.inr (hvisible.step hu hs)))
  obtain ⟨hscene, hwait | hun | hnext | hvisible⟩ := hphase
  · exact absurd (hscene.sound.running g hg) hwait.unexamined
  · exact absurd (hscene.sound.running g hg) hun.unexamined
  · cases hg.symm.trans (hnext.awaits.not_running hscene.ne.2.2)
  · exact hvisible

/-- A task of `FHT_MAIN` registers a handler under a free id and then posts another task, with
any delay. In every run with a clock that does not go back, whatever else is in the queue and
however long it takes: where the other task is run the lookup finds the handler, exactly if the
other task is not yet due when it is first examined. -/
theorem delayed_lookup_iff {r : Registration U L} {e g : Nat} {ms : Int}
    {acts : List (Action U L F)} (hclock : ClockNonDecreasing acts)
    (hposts : RegistersThenPosts r e g ms acts) :
    LookupFinds r g acts ↔ NotDueAtFirst g acts := by
  obtain ⟨posted, after, p, w, rfl, hw, hscene, hwait, hspares⟩ := hposts.waiting
  have htimely := (Machine.along_append.mp (timely hclock)).2 w hw
  -- up to `w` task `g` has not been examined
  have hearlier : ∀ {pre rest v}, posted = pre ++ rest → step.run init pre = some v →
      g ∉ v.examined := by
    rintro pre rest v rfl hv hg
    rw [Machine.run_append, hv] at hw
    exact hwait.unexamined (examined_subset_of_run hw hg)
  -- where it has been, the run is beyond `w`
  have hsplit : ∀ {pre rest v}, posted ++ after = pre ++ rest → step.run init pre = some v →
      g ∈ v.examined → ∃ l, pre = posted ++ l ∧ after = l ++ rest ∧ step.run w l = some v := by
    intro pre rest v heq hv hg
    rcases List.append_eq_append_iff.mp heq with ⟨l, rfl, hl⟩ | ⟨l, hl, -⟩
    · rw [Machine.run_append, hw] at hv
      exact ⟨l, rfl, hl, hv⟩
    · exact absurd hg (hearlier hl hv)
  constructor
  · intro hfinds
    refine Machine.along_iff_forall.mpr ?_
    rintro pre a post heq u v hu hv hunexamined now b t rfl hexamine htg
    have hv' := Machine.run_concat_eq_some.mpr ⟨u, hu, hv⟩
    have hg : g ∈ v.examined := Examines.mem_examined ⟨now, b, t, rfl, hexamine, htg⟩ hv
    have heq' : posted ++ after = (pre ++ [.worker now]) ++ post := by simpa using heq
    obtain ⟨l, hl, rfl, -⟩ := hsplit heq' hv' hg
    obtain ⟨l, rfl, rfl⟩ : ∃ l', l = l' ++ [.worker now] ∧ pre = posted ++ l' := by
      rcases List.eq_nil_or_concat' l with rfl | ⟨l, a, rfl⟩
      · exact absurd hg (@hearlier _ [] _ (by simpa using hl.symm) hv')
      · rw [← List.append_assoc] at hl
        obtain ⟨hpre, ha⟩ := List.append_inj' hl rfl
        exact ⟨l, by rw [List.singleton_inj.mp ha], hpre⟩
    have hlu : step.run w l = some u := by
      rwa [Machine.run_append, hw] at hu
    have hspares' : ∀ a ∈ l, CallSpares r a := fun a ha => hspares a (by simp [ha])
    rw [List.append_assoc] at htimely
    have halong := (Machine.along_append.mp htimely).1.and_forall hspares'
    have htime := Machine.along_iff_forall.mp (timely hclock) _ _ _ heq u v hu hv
    obtain ⟨hscene', hexamined | hwait' | hun⟩ := hwait.run hscene halong hlu
    · exact absurd hexamined hunexamined
    · exact absurd htg (hwait'.awaits.not_examine hscene'.ne.2.1 hexamine)
    · rcases hun.examined hscene' hv htime hexamine htg with ⟨hearly, -⟩ | ⟨-, hrun, hpubl⟩
      · exact hearly
      · have hfound := hfinds _ v ⟨post, heq'.symm⟩ hv' hrun
        cases hpubl.symm.trans ((r.found_iff v).mp hfound)
  · intro hback pre v hpre hv hg
    obtain ⟨rest, hrest⟩ := hpre
    obtain ⟨l, rfl, rfl, hl⟩ := hsplit hrest.symm hv ((sound hv).running g hg)
    have hspares' : ∀ a ∈ l, CallSpares r a := fun a ha =>
      hspares a (List.mem_append_left _ ha)
    have halong := (Machine.along_append.mp htimely).1.and
      (Machine.along_append.mp ((Machine.along_append.mp hback).2 w hw)).1
    exact (r.found_iff v).mpr
      (hwait.run_goesBack hscene (halong.and_forall hspares') hl hg).published

end Publish

/-- A post with its push, all at one time. -/
def postAt (now : Int) (i : Nat) (post : Action Nat Nat Unit) : List (Action Nat Nat Unit) :=
  [post, .push i now, .push i now, .push i now]

/-- The loop task is run, and then task 1 is in its functor. -/
def taskStarts : List (Action Nat Nat Unit) :=
  postAt 0 0 (.construct 0) ++ postAt 0 1 (.user 1 (.postTask ()) 0) ++
    List.replicate 4 (.worker 0) ++ .functorEnds 0 (.returns .CONTINUE) ::
    List.replicate 4 (.worker 0)

/-- The functor of task 1 goes on for five milliseconds after it has posted task 3 with a delay
of one, and the worker pauses. -/
def taskEnds : List (Action Nat Nat Unit) :=
  .functorEnds 1 (.returns .FINISH) :: List.replicate 4 (.worker 5000000) ++
    List.replicate 9 .timer

/-- A batch begins with the loop task, and the task behind it is examined. -/
def loopTaskRuns (now : Int) : List (Action Nat Nat Unit) :=
  List.replicate 7 (.worker now) ++ .functorEnds 0 (.returns .CONTINUE) ::
    List.replicate 4 (.worker now)

/-- Task 1 registers the handler and posts task 3 with a delay. In the next batch the update is
run, and task 3 is examined right after it. -/
def lookupAfter (ms : Int) : List (Action Nat Nat Unit) :=
  taskStarts ++ .begin 2 (.addHendler "a".toList 7) ::
    [.post 2, .push 2 0, .push 2 0, .push 2 0] ++ .user 3 (.postTask ()) ms ::
    [.push 3 0, .push 3 0, .push 3 0] ++ (taskEnds ++ (loopTaskRuns 5000000 ++
    .functorEnds 2 (.returns .FINISH) :: List.replicate 2 (.worker 5000000)))

/-- With a delay of one millisecond task 3 is due by then. -/
def lateLookup : List (Action Nat Nat Unit) := lookupAfter 1

/-- With a delay of ten it goes back, and is run in the batch after the pause. -/
def punctualLookup : List (Action Nat Nat Unit) :=
  lookupAfter 10 ++ (List.replicate 5 (.worker 5000000) ++ List.replicate 9 .timer ++
    loopTaskRuns 15000000)

theorem registersThenPosts_lookupAfter (ms : Int) :
    RegistersThenPosts (.list "a".toList 7) 2 3 ms (lookupAfter ms) := by
  refine ⟨taskStarts, [.post 2, .push 2 0, .push 2 0, .push 2 0],
    [.push 3 0, .push 3 0, .push 3 0], _, _, _, _, 1, (), rfl, rfl, rfl, ⟨rfl, rfl, ?_⟩, rfl,
    ⟨_, rfl, rfl⟩, rfl, ⟨_, rfl, rfl⟩, by simp, ?_⟩
  · intro i u hu
    cases hu
  · simp [CallSpares, taskEnds, loopTaskRuns]

theorem RegistersThenPosts.append {r : Registration Nat Nat} {e g : Nat} {ms : Int}
    {acts more : List (Action Nat Nat Unit)} (h : RegistersThenPosts r e g ms acts)
    (hmore : ∀ a ∈ more, CallSpares r a) : RegistersThenPosts r e g ms (acts ++ more) := by
  obtain ⟨before, mid, mid', after, u, v, w, x, func, rfl, hu, hx, hfree, hv, he, hw, hg, hends,
    hspares⟩ := h
  refine ⟨before, mid, mid', after ++ more, u, v, w, x, func, by simp, hu, hx, hfree, hv, he, hw,
    hg, hends, fun a ha => ?_⟩
  rw [← List.append_assoc] at ha
  rcases List.mem_append.mp ha with ha | ha
  · exact hspares a ha
  · exact hmore a ha

theorem delayed_lookup_iff_late :
    (ClockNonDecreasing lateLookup ∧ RegistersThenPosts (.list "a".toList 7) 2 3 1 lateLookup ∧
      ¬ LookupFinds (.list "a".toList 7) 3 lateLookup) ∧
    ClockNonDecreasing punctualLookup ∧
      RegistersThenPosts (.list "a".toList 7) 2 3 10 punctualLookup ∧
      (∃ w, step.run init punctualLookup = some w ∧ w.thread.worker.isRunning 3 = true) ∧
      LookupFinds (.list "a".toList 7) 3 punctualLookup := by
  have hlate : ClockNonDecreasing lateLookup := by unfold ClockNonDecreasing; decide
  have hpunctual : ClockNonDecreasing punctualLookup := by unfold ClockNonDecreasing; decide
  have hposts : RegistersThenPosts (.list "a".toList 7) 2 3 10 punctualLookup :=
    (registersThenPosts_lookupAfter 10).append (by simp [CallSpares, loopTaskRuns])
  refine ⟨⟨hlate, registersThenPosts_lookupAfter 1, fun hfinds => ?_⟩, hpunctual, hposts,
    ⟨_, rfl, rfl⟩, (delayed_lookup_iff hpunctual hposts).mpr (by decide +kernel)⟩
  exact absurd ((delayed_lookup_iff hlate (registersThenPosts_lookupAfter 1)).mp hfinds)
    (by decide +kernel)

theorem late_lookup_misses : ¬ ∀ (r : Registration Nat Nat) (e g : Nat) (ms : Int)
    (acts : List (Action Nat Nat Unit)), 0 < ms → ClockNonDecreasing acts →
    RegistersThenPosts r e g ms acts → LookupFinds r g acts := by
  intro h
  have hclock : ClockNonDecreasing lateLookup := by unfold ClockNonDecreasing; decide
  have hfinds := h _ 2 3 1 lateLookup (by decide) hclock (registersThenPosts_lookupAfter 1)
  have hend : (step.run init lateLookup).map (fun w =>
      (w.thread.worker.isRunning 3, w.getHendler "a".toList)) = some (true, none) := by decide
  obtain ⟨w, hw, hlook⟩ := Option.map_eq_some_iff.mp hend
  obtain ⟨hrunning, hnone⟩ := Prod.mk.inj hlook
  have hfound : w.getHendler "a".toList = some 7 := hfinds _ w List.prefix_rfl hw hrunning
  cases hnone.symm.trans hfound

end FhtMain

end FHT.Hendler
