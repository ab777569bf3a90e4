import FHT.Task.Turns

/-!
# No task runs early

Whether a task is due is judged by the reading of its batch, which is older than the start of
its run. The task's own time is written when it is pushed and after each run, and goes with it
through the queue. So a run never starts before the delay has passed.

## Main definitions

- `Timed` — the thread with a clock that does not go back
- `Event` — a push takes its time, a run starts or ends
- `OnTime` — no run starts early
- `Thread.Since` — a waiting task has a time that is not before `c`

## Main results

- `Thread.Since.step` — what one step does to the times of the waiting tasks
- `Timed.none_early` — in every run all runs of tasks start on time
-/

namespace FHT.Task

variable {F : Type*}

/-- The thread, and the time of its last step. -/
structure Timed (F : Type*) where
  time : Int
  thread : Thread F

/-- What is seen of the times. -/
inductive Event
  | stamped (i : Nat) (ms time : Int)
  | started (i : Nat) (time : Int)
  | ended (i : Nat) (time : Int)

/-- The events that begin the delay of a task. -/
def Event.since : Event → Option (Nat × Int)
  | .stamped i _ time | .ended i time => some (i, time)
  | .started _ _ => none

/-- The task of push `i` may start: its delay has passed since the push took its time, and since
each run that has ended. The clock counts nanoseconds; a difference is truncated to whole
milliseconds. -/
def Due (es : List Event) (i : Nat) (start : Int) : Prop :=
  (∃ ms stamp, .stamped i ms stamp ∈ es) ∧
    ∀ ms stamp, .stamped i ms stamp ∈ es →
      ms ≤ (start - stamp).tdiv 1000000 ∧
        ∀ stop, .ended i stop ∈ es → ms ≤ (start - stop).tdiv 1000000

/-- Every run starts when it may. -/
def OnTime (es : List Event) : Prop :=
  ∀ pre i start, pre ++ [.started i start] <+: es → Due pre i start

theorem OnTime.concat {es : List Event} (h : OnTime es) {e : Event}
    (he : ∀ i start, e = .started i start → Due es i start) : OnTime (es ++ [e]) := by
  intro pre i start hpre
  rcases List.prefix_concat_iff.mp hpre with heq | hpre
  · obtain ⟨rfl, he'⟩ := List.append_inj' heq rfl
    exact he i start (List.cons.inj he').1.symm
  · exact h pre i start hpre

/-- A later reading gives a greater age. -/
theorem difftime_mono {realtime realtime' : Int} (ts : Int) (h : realtime ≤ realtime') :
    difftime realtime ts ≤ difftime realtime' ts :=
  Int.tdiv_le_tdiv (by decide) (by omega)

namespace Timed

def init (time : Int) : Timed F := ⟨time, .init⟩

/-- A step at its time; where the clock is read it shows this time. -/
def step : Machine (Timed F) (Int × Thread.Action F) := fun s a =>
  if s.time ≤ a.1 ∧ a.2.now.all (· = a.1) then
    (Thread.step s.thread a.2).map fun thread => ⟨a.1, thread⟩
  else none

def event (s : Timed F) (a : Int × Thread.Action F) : List Event :=
  match a.2 with
  | .push i _ =>
    match s.thread.pushes i with
    | some ⟨_, ms, .begun⟩ => [.stamped i ms a.1]
    | _ => []
  | .worker _ =>
    match (Thread.step s.thread a.2).map Thread.worker with
    | some (.running _ t) => [.started t.id a.1]
    | _ => []
  | .functorEnds i _ => [.ended i a.1]
  | .pushBegin _ _ _ | .timer | .destructor | .spurious => []

theorem step_eq_some {s s' : Timed F} {a : Int × Thread.Action F} (h : step s a = some s') :
    s.time ≤ a.1 ∧ (∀ now, a.2.now = some now → now = a.1) ∧ s'.time = a.1 ∧
      Thread.step s.thread a.2 = some s'.thread := by
  rw [step] at h
  split at h
  · next hc =>
    obtain ⟨thread, hthread, rfl⟩ := Option.map_eq_some_iff.mp h
    refine ⟨hc.1, fun now hnow => ?_, rfl, hthread⟩
    have hall := hc.2
    rw [hnow] at hall
    exact of_decide_eq_true hall
  · cases h

end Timed

/-- The task in hand, where it has not been run in this batch or has its new time. -/
def Worker.waiting : Worker F → Option (Tuple F)
  | .examine _ t | .put _ t => some t
  | _ => none

namespace Thread

/-- Where the task of push `i` waits, its time is not before `c`. -/
structure Since (i : Nat) (c : Int) (s : Thread F) : Prop where
  push : ∀ p ts, s.pushes i = some p → p.stage = .stamped ts → c ≤ ts
  tuple : ∀ t, t ∈ s.queue ∨ s.worker.waiting = some t → t.id = i → c ≤ t.ts

theorem Still.waiting {s s' : Thread F} (h : s.Still s') :
    s'.worker.waiting = s.worker.waiting := by
  have hout : ∀ w : Worker F, w.inBatch = false → w.waiting = none := by
    intro w hw
    cases w with
    | examine | put => cases hw
    | _ => rfl
  rcases h.worker with hw | ⟨hs, hs'⟩
  · rw [hw]
  · rw [hout _ hs, hout _ hs']

/-- Where a waiting task comes from. -/
theorem Serves.waiting {s s' : Thread F} {a : Action F} (h : s.Serves a s') {t : Tuple F}
    (ht : t ∈ s'.queue ∨ s'.worker.waiting = some t) :
    (t ∈ s.queue ∨ s.worker.waiting = some t) ∨
    (∃ i now p ts, a = .push i now ∧ s.pushes i = some p ∧ p.stage = .stamped ts ∧
      t = ⟨i, p.function, p.ms, true, ts⟩) ∨
    ∃ now b u, a = .worker now ∧ s.worker = .stamp b u ∧ t = { u with ts := now } := by
  cases h with
  | stay hs | begin hs | stage hs =>
    rw [hs.queue, hs.waiting] at ht
    exact .inl ht
  | @arrive i now p ts _ hi hst hw hq =>
    rw [hq, hw, List.mem_append] at ht
    rcases ht with (ht | ht) | ht
    · exact .inl (.inl ht)
    · exact .inr (.inl ⟨i, now, p, ts, rfl, hi, hst, List.mem_singleton.mp ht⟩)
    · exact .inl (.inr ht)
  | start _ hw' hq =>
    rw [hq, hw'] at ht
    exact .inl (ht.imp_right nofun)
  | pop hw hq =>
    rw [hw.after] at ht
    refine .inl (.inl ?_)
    rw [hq]
    rcases ht with ht | ht
    · exact List.mem_cons_of_mem _ ht
    · obtain rfl := Option.some.inj ht
      exact List.mem_cons_self
  | early hw _ hq =>
    rw [hq, hw.after] at ht
    rw [hw.before]
    exact .inl ht
  | run hw _ hq | drop hw _ hq | again hw _ hq | retire hw hq =>
    rw [hq, hw.after] at ht
    exact .inl (.inl (ht.resolve_right nofun))
  | @stamp now b u _ hw hq =>
    rw [hq, hw.after] at ht
    rcases ht with ht | ht
    · exact .inl (.inl ht)
    · exact .inr (.inr ⟨now, b, u, rfl, hw.before, (Option.some.inj ht).symm⟩)
  | requeue hw hq =>
    rw [hq, hw.after, List.mem_append, List.mem_singleton] at ht
    rw [hw.before]
    rcases ht with (ht | rfl) | ht
    · exact .inl (.inl ht)
    · exact .inl (.inr rfl)
    · cases ht
  | @throw b u e _ hw hw' hq =>
    have hnone : s'.worker.waiting = none := by
      rw [hw']
      split <;> rfl
    rw [hq, hnone] at ht
    exact .inl (.inl (ht.resolve_right nofun))
  | finish hw hw' hq =>
    have hnone : s'.worker.waiting = none := by
      generalize s'.worker = w' at hw'
      cases w' with
      | examine | put => cases hw'
      | _ => rfl
    rw [hq, hnone] at ht
    exact .inl (.inl (ht.resolve_right nofun))

/-- The clock shows no earlier time. -/
theorem Since.step {i : Nat} {c : Int} {s s' : Thread F} {a : Action F} (h : s.Since i c)
    (ha : s.Serves a s') (hnow : ∀ now, a.now = some now → c ≤ now) : s'.Since i c := by
  refine ⟨?_, ?_⟩
  · intro p' ts hi' hst'
    obtain ⟨p, hi, hst | ⟨-, rfl⟩⟩ := ha.stamped_before hi' hst'
    · exact h.push p ts hi hst
    · exact hnow ts rfl
  · intro t ht hti
    rcases ha.waiting ht with ht | ⟨k, now, p, ts, rfl, hk, hst, rfl⟩ | ⟨now, b, u, rfl, -, rfl⟩
    · exact h.tuple t ht hti
    · obtain rfl : k = i := hti
      exact h.push p ts hk hst
    · exact hnow now rfl

theorem mem_tuples_of_waiting {s : Thread F} {t : Tuple F}
    (h : t ∈ s.queue ∨ s.worker.waiting = some t) : t ∈ s.tuples := by
  rcases h with h | h
  · exact List.mem_append_left _ h
  · refine mem_tuples_of_hand ?_
    cases hw : s.worker with
    | examine | put =>
      rw [hw] at h
      exact h
    | _ =>
      rw [hw] at h
      cases h

/-- A push that has not taken its time yet has no task anywhere. -/
theorem Sound.since_of_begun {s : Thread F} (h : s.Sound) {i : Nat} {p : Push F}
    (hi : s.pushes i = some p) (hst : p.stage = .begun) (c : Int) : s.Since i c := by
  refine ⟨?_, ?_⟩
  · intro q ts hq hts
    obtain rfl := Option.some.inj (hi.symm.trans hq)
    cases hst.symm.trans hts
  · rintro t ht rfl
    have hentered : s.entered t.id = false := by simp [entered, hi, Push.entered, hst]
    have hcount := h.count t.id
    rw [hentered] at hcount
    exact absurd (List.mem_append_left _ (List.mem_map_of_mem (mem_tuples_of_waiting ht)))
      (List.count_eq_zero.mp hcount)

/-- A run ends with its task in hand, and puts it nowhere yet. -/
theorem step_functorEnds {s s' : Thread F} {i : Nat} {o : Outcome}
    (h : step s (.functorEnds i o) = some s') : ∃ b t, s.worker = .running b t ∧ t.id = i ∧
      s'.queue = s.queue ∧ s'.pushes = s.pushes ∧ s'.worker.waiting = none := by
  have h : s.functorEnds i o = some s' := act_of_step h
  cases functorEnds_cases h with
  | again hw | retire hw => exact ⟨_, _, hw, rfl, rfl, rfl, rfl⟩
  | throw hw =>
    refine ⟨_, _, hw, rfl, rfl, rfl, ?_⟩
    dsimp only
    split <;> rfl

theorem Sound.entered_of_hand {s : Thread F} (h : s.Sound) {t : Tuple F}
    (hhand : s.worker.hand = some t) : s.entered t.id = true := by
  have hmem : t.id ∈ s.places :=
    List.mem_append_left _ (List.mem_map_of_mem (mem_tuples_of_hand hhand))
  have hcount := h.count t.id
  cases hentered : s.entered t.id with
  | true => rfl
  | false =>
    rw [hentered] at hcount
    exact absurd hmem (List.count_eq_zero.mp hcount)

/-- Where a run has ended no task waits under its number. -/
theorem Sound.since_of_ends {s s' : Thread F} {i : Nat} {o : Outcome} (h : s.Sound)
    (hs : Thread.step s (.functorEnds i o) = some s') (c : Int) : s'.Since i c := by
  obtain ⟨b, t, hw, rfl, hq, hp, hnone⟩ := step_functorEnds hs
  have hhand : s.worker.hand = some t := by rw [hw]; rfl
  refine ⟨?_, ?_⟩
  · intro p ts hi hst
    have hentered := h.entered_of_hand hhand
    rw [hp] at hi
    simp [entered, hi, Push.entered, hst] at hentered
  · intro u hu hut
    rw [hnone, hq] at hu
    have hmem : u ∈ s.queue := by simpa using hu
    have hnot := not_mem_line_of_hand h.nodup hhand (by simp [hw])
    rw [line_all_of_not_examine (by simp [hw])] at hnot
    exact absurd (List.mem_map.mpr ⟨u, hmem, hut⟩) hnot

/-- A run is started by the step that examines its task. -/
theorem step_running {s s' : Thread F} {now : Int} {b : Batch} {t : Tuple F} (hfits : s.Fits)
    (hs : step s (.worker now) = some s') (hw : s'.worker = .running b t) :
    ∃ b', s.worker = .examine b' t ∧ ¬ difftime b'.realtime t.ts < t.ms := by
  have hworks : ∀ {w w'}, s.Works s' w w' → w' = .running b t := fun h => h.after.symm.trans hw
  cases step_serves hfits hs with
  | stay hstill =>
    rcases hstill.worker with hsame | ⟨-, hout⟩
    · have hact : s.workerStep now = some s' := act_of_step hs
      simp [workerStep, hsame.symm.trans hw] at hact
    · rw [hw] at hout
      cases hout
  | run h hd =>
    obtain ⟨rfl, rfl⟩ := Worker.running.inj (hworks h)
    exact ⟨_, h.before, hd⟩
  | start _ h => cases h.symm.trans hw
  | pop h | early h | drop h | stamp h | requeue h => cases hworks h
  | finish _ hout =>
    rw [hw] at hout
    cases hout

end Thread

namespace Timed

/-- What the steps keep, behind the events `es`. -/
structure Kept (es : List Event) (s : Timed F) : Prop where
  sound : s.thread.Sound
  reading : ∀ realtime, s.thread.worker.reading = some realtime → realtime ≤ s.time
  since : ∀ e ∈ es, ∀ i c, e.since = some (i, c) → c ≤ s.time ∧ s.thread.Since i c
  delay : ∀ i ms stamp, .stamped i ms stamp ∈ es → ∃ p, s.thread.pushes i = some p ∧ p.ms = ms
  stamped : ∀ i p, s.thread.pushes i = some p → p.stage = .begun ∨
    ∃ ms stamp, .stamped i ms stamp ∈ es
  onTime : OnTime es

theorem init_kept (time : Int) : (init time : Timed F).Kept [] where
  sound := Thread.sound_init
  reading := nofun
  since := nofun
  delay := nofun
  stamped := nofun
  onTime := by
    intro pre i start hpre
    simp at hpre

theorem event_cases (s : Timed F) (a : Int × Thread.Action F) : event s a = [] ∨
    (∃ i now p, a.2 = .push i now ∧ s.thread.pushes i = some p ∧ p.stage = .begun ∧
      event s a = [.stamped i p.ms a.1]) ∨
    (∃ now thread b t, a.2 = .worker now ∧ Thread.step s.thread a.2 = some thread ∧
      thread.worker = .running b t ∧ event s a = [.started t.id a.1]) ∨
    ∃ i o, a.2 = .functorEnds i o ∧ event s a = [.ended i a.1] := by
  obtain ⟨time, a⟩ := a
  cases a with
  | push i now =>
    simp only [event]
    split
    · next function ms hi => exact .inr (.inl ⟨i, now, _, rfl, hi, rfl, rfl⟩)
    · exact .inl rfl
  | worker now =>
    simp only [event]
    split
    · next b t hw =>
      obtain ⟨thread, hthread, hw⟩ := Option.map_eq_some_iff.mp hw
      exact .inr (.inr (.inl ⟨now, thread, b, t, rfl, hthread, hw, rfl⟩))
    · exact .inl rfl
  | functorEnds i o => exact .inr (.inr (.inr ⟨i, o, rfl, rfl⟩))
  | pushBegin | timer | destructor | spurious => exact .inl rfl

theorem event_stamped {s : Timed F} {time now : Int} {i : Nat} {p : Push F}
    (hi : s.thread.pushes i = some p) (hst : p.stage = .begun) :
    event s (time, .push i now) = [.stamped i p.ms time] := by
  obtain ⟨function, ms, stage⟩ := p
  obtain rfl : stage = .begun := hst
  simp only [event, hi]

/-- The run that starts is due: the reading of its batch is not after its start, and its time
not before what the delay is counted from. -/
theorem Kept.due {es : List Event} {s : Timed F} {now start : Int} {thread : Thread F} {b : Batch}
    {t : Tuple F} (h : s.Kept es) (hs : Thread.step s.thread (.worker now) = some thread)
    (hw : thread.worker = .running b t) (hle : s.time ≤ start) : Due es t.id start := by
  obtain ⟨b', hw', hd⟩ := Thread.step_running h.sound.fits hs hw
  have ht : t ∈ s.thread.tuples := Thread.mem_tuples_of_hand (by rw [hw']; rfl)
  obtain ⟨-, p, hp, -, hms⟩ := (h.sound.carried t.id).tuple t ht rfl
  have hreading : b'.realtime ≤ start :=
    Int.le_trans (h.reading _ (by rw [hw']; rfl)) hle
  have hage : ∀ e ∈ es, ∀ c, e.since = some (t.id, c) → t.ms ≤ difftime start c := by
    intro e he c hc
    have hts : c ≤ t.ts := ((h.since e he t.id c hc).2).tuple t (.inr (by rw [hw']; rfl)) rfl
    calc t.ms ≤ difftime b'.realtime t.ts := Int.not_lt.mp hd
      _ ≤ difftime b'.realtime c := difftime_le _ hts
      _ ≤ difftime start c := difftime_mono _ hreading
  refine ⟨?_, ?_⟩
  · rcases h.stamped t.id p hp with hst | hstamped
    · have hentered := h.sound.entered_of_hand (by rw [hw']; rfl : s.thread.worker.hand = some t)
      simp [Thread.entered, hp, Push.entered, hst] at hentered
    · exact hstamped
  · intro ms stamp hstamp
    obtain ⟨q, hq, hqms⟩ := h.delay t.id ms stamp hstamp
    obtain rfl := Option.some.inj (hp.symm.trans hq)
    have hmseq : ms = t.ms := hqms.symm.trans hms
    rw [hmseq]
    exact ⟨hage _ hstamp stamp rfl, fun stop hstop => hage _ hstop stop rfl⟩

/-- The stamp of a push shows its delay. -/
theorem ms_of_stamped {s : Timed F} {a : Int × Thread.Action F} {i : Nat} {ms stamp : Int}
    (h : .stamped i ms stamp ∈ event s a) :
    ∃ p, s.thread.pushes i = some p ∧ p.ms = ms := by
  rcases event_cases s a with hev | ⟨k, now, p, -, hk, -, hev⟩ | ⟨now, thread, b, t, -, -, -, hev⟩ |
    ⟨k, o, -, hev⟩
  · rw [hev] at h
    cases h
  · rw [hev, List.mem_singleton] at h
    obtain ⟨rfl, rfl, -⟩ := Event.stamped.inj h
    exact ⟨p, hk, rfl⟩
  · rw [hev, List.mem_singleton] at h
    cases h
  · rw [hev, List.mem_singleton] at h
    cases h

/-- Where the delay of a task begins, no task with an earlier time waits under its number. -/
theorem since_of_event {s s' : Timed F} {a : Int × Thread.Action F} (hsound : s.thread.Sound)
    (hs : step s a = some s') {e : Event} (he : e ∈ event s a) {i : Nat} {c : Int}
    (hc : e.since = some (i, c)) : c = a.1 ∧ s'.thread.Since i c := by
  obtain ⟨-, hnow, -, hstep⟩ := step_eq_some hs
  rcases event_cases s a with hev | ⟨k, now, p, -, hk, hst, hev⟩ |
    ⟨now, thread, b, t, -, -, -, hev⟩ | ⟨k, o, ha, hev⟩
  · rw [hev] at he
    cases he
  · rw [hev, List.mem_singleton] at he
    obtain ⟨rfl, rfl⟩ : k = i ∧ a.1 = c := by simpa [he, Event.since] using hc
    have hbegun := hsound.since_of_begun hk hst a.1
    refine ⟨rfl, hbegun.step (Thread.step_serves hsound.fits hstep) ?_⟩
    exact fun now' hnow' => Int.le_of_eq (hnow now' hnow').symm
  · rw [hev, List.mem_singleton] at he
    rw [he] at hc
    cases hc
  · rw [hev, List.mem_singleton] at he
    obtain ⟨rfl, rfl⟩ : k = i ∧ a.1 = c := by simpa [he, Event.since] using hc
    exact ⟨rfl, hsound.since_of_ends (ha ▸ hstep) a.1⟩

/-- A push that has left its first stage was stamped, at the latest by this step. -/
theorem Kept.stamped_step {es : List Event} {s s' : Timed F} {a : Int × Thread.Action F}
    (h : s.Kept es) (hserves : s.thread.Serves a.2 s'.thread) (i : Nat) (p' : Push F)
    (hp' : s'.thread.pushes i = some p') :
    p'.stage = .begun ∨ ∃ ms stamp, .stamped i ms stamp ∈ es ++ event s a := by
  cases hp : s.thread.pushes i with
  | none => exact .inl (hserves.pushes_new hp hp').2
  | some p =>
    rcases h.stamped i p hp with hst | ⟨ms, stamp, hmem⟩
    · by_cases hpush : ∃ now, a.2 = .push i now
      · -- this step is the one that takes the time
        obtain ⟨time, action⟩ := a
        obtain ⟨now, rfl : action = .push i now⟩ := hpush
        refine .inr ⟨p.ms, time, List.mem_append_right _ ?_⟩
        rw [event_stamped hp hst]
        exact List.mem_singleton_self _
      · have hsame := hserves.pushes_same hp fun now ha => hpush ⟨now, ha⟩
        obtain rfl := Option.some.inj (hsame.symm.trans hp')
        exact .inl hst
    · exact .inr ⟨ms, stamp, List.mem_append_left _ hmem⟩

theorem Kept.onTime_step {es : List Event} {s s' : Timed F} {a : Int × Thread.Action F}
    (h : s.Kept es) (hs : step s a = some s') : OnTime (es ++ event s a) := by
  obtain ⟨hle, -, -, -⟩ := step_eq_some hs
  rcases event_cases s a with hev | ⟨i, now, p, -, -, -, hev⟩ |
    ⟨now, thread, b, t, ha, hthread, hw, hev⟩ | ⟨i, o, -, hev⟩
  · rw [hev, List.append_nil]
    exact h.onTime
  · rw [hev]
    exact h.onTime.concat nofun
  · rw [hev]
    refine h.onTime.concat fun i start hstart => ?_
    obtain ⟨rfl, rfl⟩ := Event.started.inj hstart
    exact h.due (ha ▸ hthread) hw hle
  · rw [hev]
    exact h.onTime.concat nofun

theorem Kept.step {es : List Event} {s s' : Timed F} {a : Int × Thread.Action F} (h : s.Kept es)
    (hs : step s a = some s') : s'.Kept (es ++ event s a) := by
  obtain ⟨hle, hnow, htime, hstep⟩ := step_eq_some hs
  have hserves := Thread.step_serves h.sound.fits hstep
  refine ⟨h.sound.step hstep, ?_, ?_, ?_, h.stamped_step hserves, h.onTime_step hs⟩
  · intro realtime hr
    rw [htime]
    rcases Thread.reading_of_step hstep hr with ha | ⟨hr, -⟩
    · exact Int.le_of_eq (hnow realtime (by rw [ha]; rfl))
    · exact Int.le_trans (h.reading realtime hr) hle
  · intro e he i c hc
    rw [htime]
    rcases List.mem_append.mp he with he | he
    · obtain ⟨hct, hsince⟩ := h.since e he i c hc
      have hlater : c ≤ a.1 := Int.le_trans hct hle
      exact ⟨hlater, hsince.step hserves fun now ha => hnow now ha ▸ hlater⟩
    · obtain ⟨rfl, hsince⟩ := since_of_event h.sound hs he hc
      exact ⟨Int.le_refl _, hsince⟩
  · intro i ms stamp hmem
    obtain ⟨p, hp, hms⟩ : ∃ p, s.thread.pushes i = some p ∧ p.ms = ms :=
      (List.mem_append.mp hmem).elim (h.delay i ms stamp) ms_of_stamped
    obtain ⟨p', hp', -, hms', -⟩ := hserves.pushes_kept hp
    exact ⟨p', hp', hms'.trans hms⟩

/-- No run of a task starts early, in every run of the thread with a clock that does not go back:
its delay has passed since the push took its time, and since each earlier run has ended. -/
theorem none_early {acts : List (Int × Thread.Action F)} {time : Int} {s : Timed F}
    (hrun : step.run (init time) acts = some s) : OnTime (step.observe event (init time) acts) := by
  have hkept : s.Kept (step.observe event (init time) acts) :=
    Machine.run_observed (I := Kept) (fun _ _ _ _ h hs => h.step hs) (init_kept time) hrun
  exact hkept.onTime

/-- A looping task with a delay of one millisecond runs, and runs again a millisecond after it
has ended. -/
def runTwice : List (Int × Thread.Action Unit) :=
  (0, .pushBegin 0 (.postLoopTask ()) 1) :: List.replicate 3 (0, .push 0 0) ++
    List.replicate 4 (1000000, .worker 1000000) ++
    (1500000, .functorEnds 0 (.returns .CONTINUE)) ::
    (List.replicate 6 (1500000, .worker 1500000) ++ List.replicate 9 (1500000, .timer) ++
      List.replicate 7 (2500000, .worker 2500000))

theorem none_early_runTwice :
    ∃ s, step.run (init 0) runTwice = some s ∧ OnTime (step.observe event (init 0) runTwice) ∧
      step.observe event (init 0) runTwice =
        [.stamped 0 1 0, .started 0 1000000, .ended 0 1500000, .started 0 2500000] :=
  ⟨_, rfl, none_early (rfl : step.run (init 0) runTwice = some _), rfl⟩

end Timed

end FHT.Task
