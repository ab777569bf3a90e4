import FHT.Task.Round

/-!
# How long the worker pauses

A batch lowers its local `sleep`, which starts at 0, to the delays that it meets; a `sleep` that
is still 0 becomes one millisecond. A delay that is not negative never lowers it, so that the
worker does not pause until the next task is due: it looks again every millisecond, and at once
if a task with a negative delay was among those that it looked at.

## Main definitions

- `lowest` — what the loop makes of the delays that it meets

## Main results

- `Thread.pause_exact` — the pause that a batch leaves
- `Thread.sleep_le_one` — no pause is longer than a millisecond
-/

namespace FHT.Task

variable {F : Type*}

/-- The local `sleep` after the tasks `q` were examined. -/
def lowest (q : List (Tuple F)) : Int :=
  (q.map Tuple.ms).foldl (fun sleep ms => if sleep > ms then ms else sleep) 0

theorem lowest_append (q : List (Tuple F)) (t : Tuple F) :
    lowest (q ++ [t]) = if lowest q > t.ms then t.ms else lowest q := by
  simp [lowest, List.foldl_append]

/-- It is the least delay if there is a negative one, and otherwise 0. -/
theorem lowest_cases (q : List (Tuple F)) :
    lowest q = 0 ∧ (∀ t ∈ q, 0 ≤ t.ms) ∨
      lowest q < 0 ∧ (∃ t ∈ q, t.ms = lowest q) ∧ ∀ t ∈ q, lowest q ≤ t.ms := by
  induction q using List.reverseRecOn with
  | nil => exact .inl ⟨rfl, by simp⟩
  | append_singleton q u ih =>
    rw [lowest_append]
    split
    · next hlow =>
      refine .inr ⟨?_, ⟨u, by simp, rfl⟩, ?_⟩
      · rcases ih with ⟨hz, -⟩ | ⟨hneg, -⟩ <;> omega
      · intro t ht
        rcases List.mem_append.mp ht with ht | ht
        · rcases ih with ⟨hz, hall⟩ | ⟨-, -, hall⟩
          · have := hall t ht
            omega
          · have := hall t ht
            omega
        · obtain rfl := List.mem_singleton.mp ht
          exact Int.le_refl _
    · next hhigh =>
      rcases ih with ⟨hz, hall⟩ | ⟨hneg, ⟨v, hv, hms⟩, hall⟩
      · refine .inl ⟨hz, fun t ht => ?_⟩
        rcases List.mem_append.mp ht with ht | ht
        · exact hall t ht
        · rw [List.mem_singleton.mp ht]
          omega
      · refine .inr ⟨hneg, ⟨v, List.mem_append_left _ hv, hms⟩, fun t ht => ?_⟩
        rcases List.mem_append.mp ht with ht | ht
        · exact hall t ht
        · rw [List.mem_singleton.mp ht]
          omega

/-- The locals of the batch, in it. -/
def Worker.locals : Worker F → Option Batch
  | .next b | .examine b _ | .running b _ | .stamp b _ | .put b _ => some b
  | _ => none

/-- What the worker has made of the delays that it met, in the batch and behind it. -/
def Accumulated (es : List (BatchEvent F)) (w : Worker F) (sleep : Int) : Prop :=
  match w.locals with
  | some b => b.sleep = lowest (es.filterMap BatchEvent.looked)
  | none => sleep = if lowest (es.filterMap BatchEvent.looked) = 0 then 1
      else lowest (es.filterMap BatchEvent.looked)

namespace Thread

theorem locals_of_inBatch {w : Worker F} (h : w.inBatch = true) : ∃ b, w.locals = some b := by
  cases w with
  | next b | examine b | running b | stamp b | put b => exact ⟨b, rfl⟩
  | _ => cases h

/-- A step that examines nothing and leaves the locals alone. -/
theorem accumulated_of_same {es es' : List (BatchEvent F)} {w w' : Worker F} {sleep sleep' : Int}
    {b : Batch} (h : Accumulated es w sleep) (hw : w.locals = some b)
    (hw' : ∃ b', w'.locals = some b' ∧ b'.sleep = b.sleep)
    (hes : es'.filterMap BatchEvent.looked = []) : Accumulated (es ++ es') w' sleep' := by
  obtain ⟨b', hw', hsleep⟩ := hw'
  simp only [Accumulated, hw] at h
  simp only [Accumulated, hw', List.filterMap_append, hes, List.append_nil]
  exact hsleep.trans h

/-- An examination lowers `sleep` to the delay of the task. -/
theorem accumulated_of_examine {es es' : List (BatchEvent F)} {w : Worker F} {sleep sleep' : Int}
    {b b' : Batch} {t : Tuple F} (h : Accumulated es (.examine b t) sleep)
    (hw : w.locals = some b') (hb : b'.sleep = (b.sleepAtMost t.ms).sleep)
    (hes : es'.filterMap BatchEvent.looked = [t]) : Accumulated (es ++ es') w sleep' := by
  simp only [Accumulated, Worker.locals] at h
  simp only [Accumulated, hw, List.filterMap_append, hes, lowest_append, hb, Batch.sleepAtMost, h]

theorem looked_of_examine {s : Thread F} {now : Int} {b : Batch} {t : Tuple F}
    (hw : s.worker = .examine b t) :
    (s.round (.worker now)).filterMap BatchEvent.looked = [t] := by
  simp only [round, hw]
  split <;> rfl

theorem looked_of_worker {s : Thread F} (now : Int) (hw : ∀ b t, s.worker ≠ .examine b t) :
    (s.round (.worker now)).filterMap BatchEvent.looked = [] := by
  cases hs : s.worker with
  | examine b t => exact absurd hs (hw b t)
  | next b =>
    simp only [round, hs]
    split <;> rfl
  | _ =>
    simp only [round, hs]
    rfl

private theorem workerStep_accumulated {s s' : Thread F} {now : Int} {es : List (BatchEvent F)}
    (h : Accumulated es s.worker s.sleep) (hin : s.worker.inBatch = true)
    (hs : s.workerStep now = some s') (hfits : s.Fits) :
    Accumulated (es ++ s.round (.worker now)) s'.worker s'.sleep := by
  cases workerStep_cases hs with
  | @early b t hw | @drop b t hw | @run b t hw =>
    rw [hw] at h
    exact accumulated_of_examine h rfl rfl (looked_of_examine hw)
  | pop hw | stamp hw | put hw =>
    have hlooked := looked_of_worker (s := s) now (by simp [hw])
    rw [hw] at h
    exact accumulated_of_same h rfl ⟨_, rfl, rfl⟩ hlooked
  | finish hw hr =>
    have hlooked := looked_of_worker (s := s) now (by simp [hw])
    rw [hw] at h
    simp only [Accumulated, Worker.locals] at h
    simp only [Accumulated, Worker.locals, List.filterMap_append, hlooked, List.append_nil, h]
  | @fault b hw hr hq =>
    have hlength : b.remaining ≤ s.queue.length := hfits.worker hw
    rw [hq, List.length_nil] at hlength
    omega
  | head hw | sleep hw | count hw | closing hw | isWait hw | retWait hw | relock hw =>
    rw [hw] at hin
    cases hin

/-- One step of a batch, of whatever thread. -/
theorem step_accumulated {s s' : Thread F} {a : Action F} {es : List (BatchEvent F)}
    (h : Accumulated es s.worker s.sleep) (hfits : s.Fits) (hs : step s a = some s')
    (hround : InRound s a s') : Accumulated (es ++ s.round a) s'.worker s'.sleep := by
  obtain ⟨hin, hreturns⟩ := hround
  obtain ⟨b, hb⟩ := locals_of_inBatch hin
  have hact := act_of_step hs
  -- the other threads leave the worker in its batch
  have hbeside : ∀ es', s'.worker = s.worker ∨ s'.worker = s.notifyOne.worker →
      es'.filterMap BatchEvent.looked = [] → Accumulated (es ++ es') s'.worker s'.sleep := by
    intro es' hw hes'
    have hw : s'.worker = s.worker := by
      rcases hw with hw | hw
      · exact hw
      · exact hw.trans (notifyOne_of_inBatch hin)
    exact accumulated_of_same h hb ⟨b, hw ▸ hb, rfl⟩ hes'
  cases a with
  | worker now => exact workerStep_accumulated h hin hact hfits
  | push i now =>
    refine hbeside _ (pushStep_beside hact).worker ?_
    simp only [round]
    split <;> rfl
  | functorEnds i o =>
    cases functorEnds_cases hact with
    | again hw | retire hw =>
      rw [hw] at h
      exact accumulated_of_same h rfl ⟨_, rfl, rfl⟩ rfl
    | throw => cases hreturns
  | pushBegin i function ms =>
    exact hbeside _ (pushBegin_beside hact).worker rfl
  | timer => exact hbeside _ (timerStep_idle hact).worker rfl
  | destructor => exact hbeside _ (destructorStep_idle hact).worker rfl
  | spurious => exact hbeside _ (spurious_idle hact).worker rfl

/-- The batch that counted the tasks `q` leaves the pause `sleep`: a millisecond if none of their
delays is negative, however long they are, and otherwise the least of them, which is none. -/
inductive Pauses (q : List (Tuple F)) (sleep : Int) : Prop
  | millisecond (hsleep : sleep = 1) (hq : ∀ t ∈ q, 0 ≤ t.ms)
  | none (hneg : sleep < 0) (hmem : ∃ t ∈ q, t.ms = sleep) (hleast : ∀ t ∈ q, sleep ≤ t.ms)

theorem pauses_of_lowest {q : List (Tuple F)} {sleep : Int}
    (h : sleep = if lowest q = 0 then 1 else lowest q) : Pauses q sleep := by
  rcases lowest_cases q with ⟨hz, hall⟩ | ⟨hneg, hmem, hleast⟩
  · exact .millisecond (by rw [h, if_pos hz]) hall
  · rw [if_neg (by omega)] at h
    exact .none (h ▸ hneg) (h ▸ hmem) (h ▸ hleast)

/-- What a batch in which no functor throws does to the pause, whatever is pushed meanwhile. -/
theorem pause_exact {before acts : List (Action F)} {s t : Thread F} {realtime : Int}
    (hbefore : step.run init before = some s) (h : s.Batched realtime acts t) :
    Pauses s.queue t.sleep := by
  obtain ⟨now, rest, u, rfl, hs, hrun, hround⟩ := h.round
  obtain ⟨-, hin, hgoing⟩ := going_of_count h.count h.nonempty hs
  have hfits : u.Fits := (step_progress (fits hbefore) hs).2
  have hstart : Accumulated [] u.worker u.sleep := by
    cases workerStep_cases (act_of_step hs) with
    | count => rfl
    | sleep _ hq => exact absurd hq h.nonempty
    | _ hw =>
      rw [h.count] at hw
      cases hw
  have hend : t.Continues s.queue realtime (step.observe round u rest) ∧ t.Fits ∧
      Accumulated (step.observe round u rest) t.worker t.sleep := Machine.Along.observed
    (I := fun es v =>
      v.Continues s.queue realtime es ∧ v.Fits ∧ Accumulated es v.worker v.sleep)
    (fun es v a v' hv hs' ha => by
      obtain ⟨hcont, hvfits, hacc⟩ := hv
      refine ⟨?_, (step_progress hvfits hs').2, step_accumulated hacc hvfits hs' ha⟩
      -- a step of the run is one inside the batch
      rcases hcont with ⟨-, hgo⟩ | ⟨hout, -⟩
      · exact step_continues hgo hs' ha
      · exact absurd ha.1 (by simp [hout]))
    ⟨.inl ⟨hin, hgoing⟩, hfits, hstart⟩ hround hrun
  obtain ⟨hcont, -, hacc⟩ := hend
  rcases hcont with ⟨hin', -⟩ | ⟨hout, hover⟩
  · rw [h.ended] at hin'
    cases hin'
  · refine pauses_of_lowest ?_
    -- outside the batch the locals are gone, and the pause is what they have left
    have hlocals : t.worker.locals = none := by
      cases hw : t.worker with
      | next | examine | running | stamp | put =>
        rw [hw] at hout
        cases hout
      | _ => rfl
    simpa only [Accumulated, hlocals, hover.looked] using hacc

theorem pause_exact_batchOfTwo : ∃ s t, step.run init twoQueued = some s ∧
    s.Batched 1 batchOfTwo t ∧ Pauses s.queue t.sleep := by
  refine ⟨_, _, rfl, (and_iff_left_of_imp fun hbatch => ?_).mpr
    ⟨rfl, List.cons_ne_nil _ _, ⟨1, _, _, rfl, rfl, rfl, ?_⟩, rfl⟩⟩
  · exact pause_exact (rfl : step.run init twoQueued = some _) hbatch
  · decide

/-- The pause that is set, and the one that the batch is about to set. -/
structure Short (s : Thread F) : Prop where
  sleep : s.sleep ≤ 1
  locals : ∀ b, s.worker.locals = some b → b.sleep ≤ 0

theorem locals_notifyOne (s : Thread F) : s.notifyOne.worker.locals = s.worker.locals := by
  rw [notifyOne]
  cases s.worker <;> rfl

theorem Short.of_worker {s s' : Thread F} (h : s.Short) (hsleep : s'.sleep ≤ 1)
    (hw : s'.worker = s.worker ∨ s'.worker = s.notifyOne.worker) : s'.Short := by
  refine ⟨hsleep, fun b hb => h.locals b ?_⟩
  rcases hw with hw | hw
  · rwa [hw] at hb
  · rwa [hw, locals_notifyOne] at hb

private theorem workerStep_short {s s' : Thread F} {now : Int} (h : s.Short)
    (hs : s.workerStep now = some s') : s'.Short := by
  have hlocals : ∀ {w b}, s.worker = w → w.locals = some b → b.sleep ≤ 0 :=
    fun hw hb => h.locals _ (hw ▸ hb)
  cases workerStep_cases hs with
  | head | closing | retWait =>
    refine ⟨h.sleep, fun b hb => ?_⟩
    dsimp only at hb
    split at hb <;> cases hb
  | sleep | fault | isWait | relock => exact ⟨h.sleep, by simp [Worker.locals]⟩
  | count => exact ⟨h.sleep, by simp [Worker.locals]⟩
  | finish hw =>
    have hle := hlocals hw rfl
    refine ⟨?_, by simp [Worker.locals]⟩
    dsimp only
    split <;> omega
  | pop hw | stamp hw | put hw =>
    have hle := hlocals hw rfl
    exact ⟨h.sleep, by simpa [Worker.locals] using hle⟩
  | early hw | drop hw | run hw =>
    have hle := hlocals hw rfl
    refine ⟨h.sleep, ?_⟩
    simp only [Worker.locals, Option.some.injEq, forall_eq', Batch.sleepAtMost]
    split <;> omega

theorem step_short {s s' : Thread F} {a : Action F} (h : s.Short) (hs : step s a = some s') :
    s'.Short := by
  have hact := act_of_step hs
  cases a with
  | worker now => exact workerStep_short h hact
  | push i now =>
    refine h.of_worker ?_ (pushStep_beside hact).worker
    cases pushStep_cases hact with
    | _ => exact h.sleep
  | functorEnds i o =>
    cases functorEnds_cases hact with
    | again hw | retire hw =>
      have hle := h.locals _ (congrArg Worker.locals hw)
      exact ⟨h.sleep, by simpa [Worker.locals] using hle⟩
    | throw hw =>
      refine ⟨h.sleep, fun b hb => ?_⟩
      dsimp only at hb
      split at hb <;> cases hb
  | pushBegin i function ms =>
    obtain ⟨-, rfl⟩ := pushBegin_eq_some hact
    exact h.of_worker (by simp) (.inl rfl)
  | timer =>
    refine h.of_worker ?_ (timerStep_idle hact).worker
    cases timerStep_cases hact with
    | reset => simp
    | _ => exact h.sleep
  | destructor =>
    refine h.of_worker ?_ (destructorStep_idle hact).worker
    cases destructorStep_cases hact with
    | _ => exact h.sleep
  | spurious =>
    obtain rfl := spurious_eq_some hact
    exact h.of_worker h.sleep (.inr rfl)

/-- In every reachable state the pause is a millisecond at most, whatever the delays. -/
theorem sleep_le_one {acts : List (Action F)} {s : Thread F}
    (hrun : step.run init acts = some s) : s.sleep ≤ 1 :=
  (Machine.run_invariant (I := Short) (fun _ _ _ hu ht => step_short hu ht)
    ⟨by simp [init], by simp [init, Worker.locals]⟩ hrun).sleep

end Thread

end FHT.Task
