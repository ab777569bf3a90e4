import FHT.Task.Order

/-!
# Whose turn comes first

A task that stands before another one in the queue is examined before the other is run, however
the batches fall. It is run at that examination if it is due, and a task without a delay is due
in every batch that was begun after it was stamped.

## Main definitions

- `Thread.Precedes` — a task of the queue is examined before another is run
- `Thread.Punctual` — where a task is examined next, its time is not after that of the batch
- `Thread.Pending` — a pushed task has still to be run or dropped
- `Thread.Awaits` — a task is run before another
- `Thread.Apart` — a task is not between two others

## Main results

- `Thread.Precedes.step`, `Thread.Punctual.step` — what one step does to the order and the times
- `Thread.Awaits.step` — a punctual task without a delay keeps its turn until it has run
- `Thread.Apart.step` — no task comes between two that wait in order
- `Thread.Sound.pending_step` — when a posted task is pending
-/

namespace FHT.Task

variable {F : Type*}

/-- The clock reading by which the batch goes, or the next one will. -/
def Worker.reading : Worker F → Option Int
  | .count realtime | .sleeping realtime => some realtime
  | .next b | .examine b _ | .running b _ | .stamp b _ | .put b _ => some b.realtime
  | _ => none

namespace Thread

/-- What holds in every reachable state: no task is lost or doubled, and each is as pushed. -/
structure Sound (s : Thread F) : Prop where
  fits : s.Fits
  count : ∀ i, s.places.count i = (s.entered i).toNat
  known : s.TuplesKnown
  carried : ∀ i, s.Carries i fun _ => True

theorem sound_init : (init : Thread F).Sound := by
  refine ⟨trivial, fun i => rfl, ?_, fun i => ⟨fun _ _ _ _ => trivial, ?_⟩⟩
  · simp [TuplesKnown, tuples, init, Worker.hand]
  · simp [tuples, init, Worker.hand]

theorem Sound.step {s s' : Thread F} {a : Action F} (h : s.Sound)
    (hs : Thread.step s a = some s') : s'.Sound := by
  have hmoves := step_moves hs
  refine ⟨(step_progress h.fits hs).2, ?_, hmoves.tuplesKnown h.known, ?_⟩
  · intro i
    have hmove := hmoves.count_places i
    have hcount := h.count i
    omega
  · intro i
    exact (h.carried i).step (step_serves h.fits hs) (fun _ _ _ _ _ => trivial)
      (fun _ _ _ _ _ _ => trivial)

theorem Sound.nodup {s : Thread F} (h : s.Sound) : s.places.Nodup := by
  rw [List.nodup_iff_count]
  intro i
  rw [h.count]
  exact Bool.toNat_le _

/-- A push was there before the step, or it is called in it. -/
theorem Sound.pushes_of_step {s s' : Thread F} {a : Action F} (h : s.Sound)
    (hs : Thread.step s a = some s') {i : Nat} {p' : Push F} (hi : s'.pushes i = some p') :
    (∃ p, s.pushes i = some p ∧ p'.function = p.function ∧ p'.ms = p.ms) ∨
      s.pushes i = none ∧ a = .pushBegin i p'.function p'.ms := by
  have hserves := step_serves h.fits hs
  cases hp : s.pushes i with
  | none => exact .inr ⟨rfl, (hserves.pushes_new hp hi).1⟩
  | some p =>
    obtain ⟨q, hq, hf, hms, -⟩ := hserves.pushes_kept hp
    obtain rfl := Option.some.inj (hi.symm.trans hq)
    exact .inl ⟨p, rfl, hf, hms⟩

theorem Sound.not_mem_of_pushes {s : Thread F} (h : s.Sound) {i : Nat} (hi : s.pushes i = none) :
    i ∉ s.places := by
  have hcount := h.count i
  have hentered : s.entered i = false := by simp [entered, hi]
  rw [hentered] at hcount
  exact List.count_eq_zero.mp hcount

/-- A task is as it was pushed. -/
theorem Sound.function {s : Thread F} (h : s.Sound) {t : Tuple F} {p : Push F}
    (ht : t ∈ s.tuples) (hp : s.pushes t.id = some p) :
    t.function = p.function ∧ t.ms = p.ms ∧ t.isLoop = true := by
  obtain ⟨-, q, hq, hf, hms⟩ := (h.carried t.id).tuple t ht rfl
  obtain rfl := Option.some.inj (hp.symm.trans hq)
  exact ⟨hf.symm, hms.symm, (h.known t ht).1⟩

theorem head_of_examine {s : Thread F} {b : Batch} {t : Tuple F} (h : s.worker = .examine b t) :
    s.line.ahead.head? = some t.id := by
  rw [line_eq h]
  rfl

theorem Still.isRunning {s s' : Thread F} (h : s.Still s') (i : Nat) :
    s'.worker.isRunning i = s.worker.isRunning i := by
  have hout : ∀ w : Worker F, w.inBatch = false → w.isRunning i = false := by
    intro w hw
    cases w with
    | running => cases hw
    | _ => rfl
  rcases h.worker with hw | ⟨hs, hs'⟩
  · rw [hw]
  · rw [hout _ hs, hout _ hs']

theorem line_all_of_not_examine {s : Thread F} (h : ∀ b t, s.worker ≠ .examine b t) :
    s.line.all = s.queue.map Tuple.id := by
  rw [Line.all, line_eq rfl]
  cases hw : s.worker with
  | examine b t => exact absurd hw (h b t)
  | _ => simp [Worker.ahead, Worker.left]

/-- Between its examination and its way back a task is not in the queue. -/
theorem not_mem_line_of_hand {s : Thread F} {t : Tuple F} (hnodup : s.places.Nodup)
    (hhand : s.worker.hand = some t) (hw : ∀ b u, s.worker ≠ .examine b u) :
    t.id ∉ s.line.all := by
  rw [line_all_of_not_examine hw]
  intro hmem
  have hqueue := (List.nodup_append.mp hnodup).1
  rw [tuples, hhand, List.map_append] at hqueue
  exact (List.nodup_append.mp hqueue).2.2 _ hmem _ (by simp) rfl

/-- A task that was pushed and not retired is in the queue when another is in hand. -/
theorem Sound.mem_line {s : Thread F} {i : Nat} (h : s.Sound) (hentered : s.entered i = true)
    (hret : i ∉ s.retired) (hhand : ∀ t, s.worker.hand = some t → t.id ≠ i)
    (hw : ∀ b t, s.worker ≠ .examine b t) : i ∈ s.line.all := by
  have hplaces : i ∈ s.places := by
    rw [← List.count_pos_iff, h.count, hentered]
    exact Nat.one_pos
  rcases List.mem_append.mp hplaces with htuples | hi
  · rw [tuples, List.map_append] at htuples
    rcases List.mem_append.mp htuples with hqueue | hi
    · rw [line_all_of_not_examine hw]
      exact hqueue
    · obtain ⟨t, ht, rfl⟩ := List.mem_map.mp hi
      exact absurd rfl (hhand t (Option.mem_toList.mp ht))
  · exact absurd hi hret

/-- Task `i` is in the queue, and is examined before task `j` is run. -/
structure Precedes (i j : Nat) (s : Thread F) : Prop where
  mem : i ∈ s.line.all
  order : ¬ Before j i s.line.all
  running : s.worker.isRunning j = false

theorem Precedes.of_line {i j : Nat} {s s' : Thread F} (h : s.Precedes i j)
    (hl : s'.line.all = s.line.all) (hr : s'.worker.isRunning j = false) : s'.Precedes i j :=
  ⟨hl ▸ h.mem, hl ▸ h.order, hr⟩

theorem Precedes.join {i j k : Nat} {s s' : Thread F} (h : s.Precedes i j) (hk : i ≠ k)
    (hl : s'.line = s.line.join k) (hr : s'.worker.isRunning j = false) : s'.Precedes i j := by
  refine ⟨?_, ?_, hr⟩
  · rw [hl, Line.all_join]
    exact List.mem_append_left _ h.mem
  · rw [hl, Line.all_join, before_concat]
    rintro (hbefore | ⟨-, hik⟩)
    · exact h.order hbefore
    · exact hk hik

/-- Another task takes its turn; it is not `j`. -/
theorem Precedes.take {i j : Nat} {s s' : Thread F} {b : Batch} {t : Tuple F}
    (h : s.Precedes i j) (hw : s.worker = .examine b t) (hti : t.id ≠ i)
    (hl : s'.line = s.line.take) : t.id ≠ j ∧ i ∈ s'.line.all ∧ ¬ Before j i s'.line.all := by
  have hall := Line.all_of_head (head_of_examine hw)
  have hmem : i ∈ s.line.take.all := by
    have hmem := h.mem
    rw [hall] at hmem
    exact (List.mem_cons.mp hmem).resolve_left (Ne.symm hti)
  have horder := h.order
  rw [hall] at horder
  rw [hl]
  refine ⟨?_, hmem, fun hbefore => horder (hbefore.cons _)⟩
  rintro rfl
  exact horder (before_cons_of_mem hmem)

/-- A step keeps the order of the two, or the first takes its turn in it: it is not yet due, or
empty, or run. -/
theorem Precedes.step {i j : Nat} {s s' : Thread F} {a : Action F} (h : s.Precedes i j)
    (ha : s.Serves a s') (hnodup : s.places.Nodup)
    (harrived : ∀ p ts, s.pushes i = some p → p.stage ≠ .stamped ts) :
    s'.Precedes i j ∨ ∃ now b t, a = .worker now ∧ s.worker = .examine b t ∧ t.id = i ∧
      (difftime b.realtime t.ts < t.ms ∨ t.function = .empty ∨ s'.worker.isRunning i = true) := by
  cases ha with
  | stay hs | begin hs | stage hs =>
    exact .inl (h.of_line (by rw [hs.line]) ((hs.isRunning j).trans h.running))
  | @arrive k _ p ts _ hk hst hw _ hl =>
    have hki : i ≠ k := by
      rintro rfl
      exact harrived p ts hk hst
    exact .inl (h.join hki hl (hw ▸ h.running))
  | start _ hw' _ hl => exact .inl (h.of_line (by rw [hl, Line.all_start]) (by rw [hw']; rfl))
  | pop hw _ hl | again hw _ _ hl | stamp hw _ hl | retire hw _ hl =>
    exact .inl (h.of_line (by rw [hl]) (by rw [hw.after]; rfl))
  | @early now b _ t _ hw hd _ hl =>
    by_cases hti : t.id = i
    · exact .inr ⟨now, b, t, rfl, hw.before, hti, .inl hd⟩
    · obtain ⟨-, hmem, horder⟩ := h.take hw.before hti hl
      exact .inl ⟨hmem, horder, by rw [hw.after]; rfl⟩
  | @drop now b _ t _ hw hf _ hl =>
    by_cases hti : t.id = i
    · exact .inr ⟨now, b, t, rfl, hw.before, hti, .inr (.inl hf)⟩
    · obtain ⟨-, hmem, horder⟩ := h.take hw.before hti hl
      exact .inl ⟨hmem, horder, by rw [hw.after]; rfl⟩
  | @run now b _ t _ hw _ _ hl =>
    by_cases hti : t.id = i
    · refine .inr ⟨now, b, t, rfl, hw.before, hti, .inr (.inr ?_)⟩
      rw [hw.after]
      exact decide_eq_true hti
    · obtain ⟨htj, hmem, horder⟩ := h.take hw.before hti hl
      refine .inl ⟨hmem, horder, ?_⟩
      rw [hw.after]
      exact decide_eq_false htj
  | @requeue _ b _ t _ hw _ hl =>
    -- a task that goes back was in hand, not in the queue
    have hti : i ≠ t.id := by
      rintro rfl
      have hhand : s.worker.hand = some t := by rw [hw.before]; rfl
      exact not_mem_line_of_hand hnodup hhand (by simp [hw.before]) h.mem
    exact .inl (h.join hti hl (by rw [hw.after]; rfl))
  | throw _ hw' _ hl =>
    refine .inl (h.of_line (by rw [hl, Line.all_stop]) ?_)
    rw [hw']
    split <;> rfl
  | finish _ hw' _ hl =>
    refine .inl (h.of_line (by rw [hl, Line.all_stop]) ?_)
    generalize s'.worker = w' at hw'
    cases w' with
    | running => cases hw'
    | _ => rfl

/-- Where task `i` is examined next, its time is not after the one by which the batch goes. In
a batch this is asked only while `k` is ahead as well. -/
def Punctual (i k : Nat) (s : Thread F) : Prop :=
  ∀ t ∈ s.tuples, t.id = i → (s.worker.inBatch = true → i ∈ s.line.ahead ∧ k ∈ s.line.ahead) →
    ∀ realtime, s.worker.reading = some realtime → t.ts ≤ realtime

theorem Beside.reading {s s' : Thread F} (h : s.Beside s') :
    s'.worker.reading = s.worker.reading := by
  rcases h.worker with hw | hw
  · rw [hw]
  · rw [hw, notifyOne]
    cases s.worker <;> rfl

private theorem functorEnds_reading {s s' : Thread F} {i : Nat} {o : Outcome} {realtime : Int}
    (h : s.functorEnds i o = some s') (hr : s'.worker.reading = some realtime) :
    s.worker.reading = some realtime ∧ s'.worker.inBatch = true := by
  cases functorEnds_cases h with
  | again hw | retire hw =>
    rw [hw]
    exact ⟨hr, rfl⟩
  | throw =>
    dsimp only at hr
    split at hr <;> cases hr

private theorem workerStep_reading {s s' : Thread F} {now realtime : Int}
    (h : s.workerStep now = some s') (hr : s'.worker.reading = some realtime) :
    now = realtime ∨
      s.worker.reading = some realtime ∧ (s.worker.inBatch = true → s'.worker.inBatch = true) := by
  cases workerStep_cases h with
  | head =>
    dsimp only at hr
    split at hr
    · exact .inl (Option.some.inj hr)
    · cases hr
  | sleep hw | count hw | pop hw | early hw | drop hw | run hw | stamp hw | put hw =>
    rw [hw]
    exact .inr ⟨hr, by simp [Worker.inBatch]⟩
  | closing | retWait =>
    dsimp only at hr
    split at hr <;> cases hr
  | finish | fault | isWait | relock => cases hr

/-- A reading is older than the step or is taken in it; one that a batch has stays with it. -/
theorem reading_of_step {s s' : Thread F} {a : Action F} {realtime : Int}
    (h : step s a = some s') (hr : s'.worker.reading = some realtime) :
    a = .worker realtime ∨
      s.worker.reading = some realtime ∧ (s.worker.inBatch = true → s'.worker.inBatch = true) := by
  have h := act_of_step h
  have hbeside : s.Beside s' →
      s.worker.reading = some realtime ∧ (s.worker.inBatch = true → s'.worker.inBatch = true) :=
    fun hb => ⟨hb.reading ▸ hr, fun hin => hb.inBatch.trans hin⟩
  cases a with
  | pushBegin i function ms => exact .inr (hbeside (pushBegin_beside h))
  | push i now => exact .inr (hbeside (pushStep_beside h))
  | timer => exact .inr (hbeside (timerStep_idle h).beside)
  | destructor => exact .inr (hbeside (destructorStep_idle h).beside)
  | spurious => exact .inr (hbeside (spurious_idle h).beside)
  | functorEnds i o =>
    obtain ⟨hr', hin⟩ := functorEnds_reading h hr
    exact .inr ⟨hr', fun _ => hin⟩
  | worker now =>
    rcases workerStep_reading h hr with rfl | hr'
    · exact .inl rfl
    · exact .inr hr'

/-- A batch that goes on takes no task into it. -/
theorem Serves.ahead_subset {s s' : Thread F} {a : Action F} (h : s.Serves a s')
    (hin : s.worker.inBatch = true) : s'.line.ahead ⊆ s.line.ahead := by
  cases h with
  | stay hs | begin hs | stage hs => rw [hs.line]; exact List.Subset.refl _
  | arrive _ _ _ _ hl => rw [hl]; exact List.Subset.refl _
  | start hw => simp [hw] at hin
  | pop _ _ hl | again _ _ _ hl | stamp _ _ hl | retire _ _ hl | requeue _ _ hl =>
    rw [hl]
    exact List.Subset.refl _
  | early _ _ _ hl | drop _ _ _ hl | run _ _ _ hl =>
    rw [hl]
    exact (List.tail_sublist _).subset
  | throw _ _ _ hl | finish _ _ _ hl =>
    rw [hl]
    exact List.nil_subset _

/-- The worker never begins a batch by a reading that is before the time of a waiting task, and
whoever is stamped in a batch waits for the next. -/
theorem Punctual.step {i k : Nat} {s s' : Thread F} {a : Action F} (h : s.Punctual i k)
    (hfits : s.Fits) (hs : Thread.step s a = some s') (hnodup : s.places.Nodup)
    (harrived : ∀ p ts, s.pushes i = some p → p.stage ≠ .stamped ts)
    (hclock : ∀ now, a.now = some now → ∀ t ∈ s.tuples, t.id = i → t.ts ≤ now) :
    s'.Punctual i k := by
  have hserves := step_serves hfits hs
  intro t ht hti hahead realtime hr
  have hread := reading_of_step hs hr
  rcases hserves.mem_tuples ht with ht | ⟨j, now, p, ts, rfl, hj, hst, rfl⟩ |
      ⟨now, b, u, rfl, hw, rfl⟩
  · rcases hread with rfl | ⟨hr', hin⟩
    · exact hclock realtime rfl t ht hti
    · refine h t ht hti (fun hb => ?_) realtime hr'
      obtain ⟨hi, hk⟩ := hahead (hin hb)
      exact ⟨hserves.ahead_subset hb hi, hserves.ahead_subset hb hk⟩
  · obtain rfl : j = i := hti
    exact absurd hst (harrived p ts hj)
  · rcases hread with hnow | ⟨hr', hin⟩
    · obtain rfl : now = realtime := by simpa using hnow
      exact Int.le_refl _
    · -- the task that is stamped is in hand, and so not ahead
      have hb : s.worker.inBatch = true := by rw [hw]; rfl
      have hmem := hserves.ahead_subset hb (hahead (hin hb)).1
      have hhand : s.worker.hand = some u := by rw [hw]; rfl
      obtain rfl : u.id = i := hti
      exact absurd (List.mem_append_left _ hmem)
        (not_mem_line_of_hand hnodup hhand (by simp [hw]))

/-- Where `k` is examined, what was asked while it was ahead holds without it. -/
theorem Punctual.of_examine {i k : Nat} {s : Thread F} {b : Batch} {t : Tuple F}
    (h : s.Punctual i k) (hw : s.worker = .examine b t) (htk : t.id = k) : s.Punctual i i := by
  intro u hu hui hahead realtime hr
  refine h u hu hui (fun hin => ⟨(hahead hin).1, ?_⟩) realtime hr
  rw [line_eq hw, ← htk]
  exact List.mem_cons_self

/-- A punctual task without a delay is due when it is examined. -/
theorem Punctual.due {i : Nat} {s : Thread F} {b : Batch} {t : Tuple F} (h : s.Punctual i i)
    (hw : s.worker = .examine b t) (hti : t.id = i) (hms : t.ms ≤ 0) :
    ¬ difftime b.realtime t.ts < t.ms := by
  have ht : t ∈ s.tuples := mem_tuples_of_hand (by rw [hw]; rfl)
  have hahead : i ∈ s.line.ahead := by
    rw [line_eq hw, ← hti]
    exact List.mem_cons_self
  have hts : t.ts ≤ b.realtime := h t ht hti (fun _ => ⟨hahead, hahead⟩) _ (by rw [hw]; rfl)
  have hpos : 0 ≤ difftime b.realtime t.ts := Int.tdiv_nonneg (by omega) (by decide)
  omega

/-- The worker is done with the examination: the task is not yet due and goes back, or it is due
and run, unless it is empty. -/
theorem step_of_examine {s s' : Thread F} {now : Int} {b : Batch} {t : Tuple F}
    (hs : step s (.worker now) = some s') (hw : s.worker = .examine b t) :
    difftime b.realtime t.ts < t.ms ∧ (∃ b', s'.worker = .put b' t) ∧ s'.queue = s.queue ∧
        s'.retired = s.retired ∧ s'.pushes = s.pushes ∨
      ¬ difftime b.realtime t.ts < t.ms ∧
        (t.function = .empty ∨ s'.worker.isRunning t.id = true) := by
  have hs : s.workerStep now = some s' := act_of_step hs
  have hat : ∀ {w}, s.worker = w → w = .examine b t := fun h => h.symm.trans hw
  cases workerStep_cases hs with
  | early h hd =>
    obtain ⟨rfl, rfl⟩ := Worker.examine.inj (hat h)
    exact .inl ⟨hd, ⟨_, rfl⟩, rfl, rfl, rfl⟩
  | drop h hd hf =>
    obtain ⟨rfl, rfl⟩ := Worker.examine.inj (hat h)
    exact .inr ⟨hd, .inl hf⟩
  | run h hd =>
    obtain ⟨rfl, rfl⟩ := Worker.examine.inj (hat h)
    exact .inr ⟨hd, .inr (decide_eq_true rfl)⟩
  | head h | sleep h | count h | finish h | fault h | pop h | stamp h | put h | closing h
  | isWait h | retWait h | relock h => cases hat h

/-- A task that is not yet due goes back behind every other one. -/
theorem precedes_of_early {s s' : Thread F} {i : Nat} {now : Int} {b : Batch} {t : Tuple F}
    (h : s.Sound) (hs : step s (.worker now) = some s') (hw : s.worker = .examine b t)
    (hd : difftime b.realtime t.ts < t.ms) (hentered : s.entered i = true) (hret : i ∉ s.retired)
    (hi : t.id ≠ i) : s'.Precedes i t.id := by
  have hs' := h.step hs
  rcases step_of_examine hs hw with ⟨-, ⟨b', hw'⟩, -, hr, hp⟩ | ⟨hnot, -⟩
  · have hhand : s'.worker.hand = some t := by rw [hw']; rfl
    have hexamine : ∀ b u, s'.worker ≠ .examine b u := by simp [hw']
    refine ⟨?_, fun hbefore => ?_, by rw [hw']; rfl⟩
    · refine hs'.mem_line ?_ (hr ▸ hret) ?_ hexamine
      · rw [entered, hp]
        exact hentered
      · intro u hu
        obtain rfl := Option.some.inj (hhand.symm.trans hu)
        exact hi
    · exact not_mem_line_of_hand hs'.nodup hhand hexamine hbefore.mem.1
  · exact absurd hd hnot

/-- Task `i` is run before task `j`. -/
def Awaits (i j : Nat) (s : Thread F) : Prop := s.Precedes i j ∨ s.worker.isRunning i = true

theorem Awaits.not_running {i j : Nat} {s : Thread F} (h : s.Awaits i j) (hij : i ≠ j) :
    s.worker.isRunning j = false := by
  rcases h with h | h
  · exact h.running
  · cases hw : s.worker with
    | running b t =>
      rw [hw] at h
      obtain rfl : t.id = i := of_decide_eq_true h
      exact decide_eq_false hij
    | _ => rfl

theorem Serves.isRunning {s s' : Thread F} {a : Action F} {i : Nat} (h : s.Serves a s')
    (hr : s.worker.isRunning i = true) :
    s'.worker.isRunning i = true ∨ ∃ o, a = .functorEnds i o := by
  have hworks : ∀ {w w'}, s.Works s' w w' → w.isRunning i = true := fun hw => hw.before ▸ hr
  cases h with
  | stay hs | begin hs | stage hs => exact .inl ((hs.isRunning i).trans hr)
  | arrive _ _ hw => exact .inl (hw ▸ hr)
  | start hw =>
    generalize s.worker = w at hw hr
    cases w with
    | running => cases hw
    | _ => cases hr
  | pop hw | early hw | run hw | drop hw | stamp hw | requeue hw => cases hworks hw
  | again hw | retire hw =>
    obtain rfl := of_decide_eq_true (hworks hw)
    exact .inr ⟨_, rfl⟩
  | throw hw =>
    rw [hw] at hr
    obtain rfl := of_decide_eq_true hr
    exact .inr ⟨_, rfl⟩
  | finish hw =>
    rw [hw] at hr
    cases hr

/-- A task that is being run was run before the step, or is examined in it. -/
theorem Serves.isRunning_after {s s' : Thread F} {a : Action F} {i : Nat} (h : s.Serves a s')
    (hr : s'.worker.isRunning i = true) : s.worker.isRunning i = true ∨
      ∃ now b t, a = .worker now ∧ s.worker = .examine b t ∧ t.id = i := by
  have hworks : ∀ {w w'}, s.Works s' w w' → w'.isRunning i = true := fun hw => hw.after ▸ hr
  cases h with
  | stay hs | begin hs | stage hs => exact .inl ((hs.isRunning i).symm.trans hr)
  | arrive _ _ hw => exact .inl (hw ▸ hr)
  | start _ hw' =>
    rw [hw'] at hr
    cases hr
  | pop hw | early hw | drop hw | stamp hw | requeue hw | again hw | retire hw =>
    cases hworks hw
  | run hw => exact .inr ⟨_, _, _, rfl, hw.before, of_decide_eq_true (hworks hw)⟩
  | throw _ hw' =>
    rw [hw'] at hr
    split at hr <;> cases hr
  | finish _ hw' =>
    generalize s'.worker = w' at hw' hr
    cases w' with
    | running => cases hw'
    | _ => cases hr

/-- A task is retired by its last run, or because it is empty. -/
theorem Moves.retired_cases {s s' : Thread F} {a : Action F} (h : s.Moves a s') {i : Nat}
    (hi : i ∈ s'.retired) : i ∈ s.retired ∨ ∃ t ∈ s.tuples, t.id = i ∧
      (t.function = .empty ∨ ∃ o, a = .functorEnds i o ∧ (o.isLast = true ∨ t.isLoop = false)) := by
  cases h with
  | keep _ _ _ hr | begin _ _ _ hr | restage _ _ _ _ hr | enter _ _ _ _ hr | take _ _ _ hr
  | stamp _ _ _ hr | requeue _ _ _ hr | again _ _ _ _ hr => exact .inl (hr ▸ hi)
  | @drop _ t _ hs hf _ _ hr =>
    rw [hr] at hi
    rcases List.mem_append.mp hi with hi | hi
    · exact .inl hi
    · obtain rfl := List.mem_singleton.mp hi
      exact .inr ⟨t, mem_tuples_of_hand hs, rfl, .inl hf⟩
  | @retire t o _ hs _ ho _ _ hr =>
    rw [hr] at hi
    rcases List.mem_append.mp hi with hi | hi
    · exact .inl hi
    · obtain rfl := List.mem_singleton.mp hi
      exact .inr ⟨t, mem_tuples_of_hand hs, rfl, .inr ⟨o, rfl, ho⟩⟩

/-- The task of a push is neither run for the last time nor dropped yet. -/
def Pending (i : Nat) (s : Thread F) : Prop := s.pushes i ≠ none ∧ i ∉ s.retired

/-- What `postTask` has pushed is pending from the push to the end of its functor. -/
theorem Sound.pending_step {s s' : Thread F} {a : Action F} {i : Nat} (h : s.Sound)
    (hs : Thread.step s a = some s')
    (hi : ∀ p, s.pushes i = some p → ∃ func, p.function = .postTask func) :
    s'.Pending i ↔
      (s.Pending i ∨ ∃ function ms, a = .pushBegin i function ms) ∧
        ∀ o, a ≠ .functorEnds i o := by
  have hmoves := step_moves hs
  have htask : ∀ t ∈ s.tuples, t.id = i → ∃ func, t.function = .postTask func := by
    intro t ht hti
    obtain ⟨-, p, hp, hf⟩ := h.known t ht
    obtain ⟨func, hfunc⟩ := hi p (hti ▸ hp)
    exact ⟨func, hf.symm.trans hfunc⟩
  constructor
  · rintro ⟨hpush, hret⟩
    refine ⟨?_, ?_⟩
    · obtain ⟨p', hp'⟩ := Option.ne_none_iff_exists'.mp hpush
      rcases h.pushes_of_step hs hp' with ⟨p, hp, -⟩ | ⟨-, ha⟩
      · exact .inl ⟨by simp [hp], fun hmem => hret (hmoves.retired_subset hmem)⟩
      · exact .inr ⟨_, _, ha⟩
    · rintro o rfl
      cases hmoves with
      | keep ha => exact ha i o rfl
      | @again t _ hhand hf =>
        obtain ⟨func, hfunc⟩ := htask t (mem_tuples_of_hand hhand) rfl
        rw [hfunc] at hf
        cases hf
      | retire _ _ _ _ _ hr => exact hret (by simp [hr])
  · rintro ⟨hpending | ⟨function, ms, rfl⟩, hends⟩
    · obtain ⟨p, hp⟩ := Option.ne_none_iff_exists'.mp hpending.1
      obtain ⟨p', hp', -⟩ := (step_serves h.fits hs).pushes_kept hp
      refine ⟨by simp [hp'], fun hret => ?_⟩
      rcases hmoves.retired_cases hret with hret | ⟨t, ht, rfl, hempty | ⟨o, ha, -⟩⟩
      · exact hpending.2 hret
      · obtain ⟨func, hfunc⟩ := htask t ht rfl
        cases hempty.symm.trans hfunc
      · exact hends o ha
    · obtain ⟨hnone, rfl⟩ := eq_of_begin hs
      refine ⟨by simp, fun hret => ?_⟩
      exact h.not_mem_of_pushes hnone (List.mem_append_right _ hret)

/-- A punctual task without a delay keeps its turn until it has run. -/
theorem Awaits.step {i j : Nat} {s s' : Thread F} {a : Action F} (h : s.Awaits i j)
    (ha : s.Serves a s') (hnodup : s.places.Nodup)
    (harrived : ∀ p ts, s.pushes i = some p → p.stage ≠ .stamped ts)
    (hpunctual : s.Punctual i i)
    (htask : ∀ t ∈ s.tuples, t.id = i → t.ms ≤ 0 ∧ t.function ≠ .empty) :
    s'.Awaits i j ∨ ∃ o, a = .functorEnds i o := by
  rcases h with h | hr
  · rcases h.step ha hnodup harrived with h | ⟨_, b, t, -, hw, hti, hturn⟩
    · exact .inl (.inl h)
    · obtain ⟨hms, hf⟩ := htask t (mem_tuples_of_hand (by rw [hw]; rfl)) hti
      rcases hturn with hearly | hempty | hrun
      · exact absurd hearly (hpunctual.due hw hti hms)
      · exact absurd hempty hf
      · exact .inl (.inr hrun)
  · rcases ha.isRunning hr with hr | hend
    · exact .inl (.inr hr)
    · exact .inr hend

/-- A task that waits for another has not been examined. -/
theorem Awaits.not_examine {i j : Nat} {s : Thread F} {b : Batch} {t : Tuple F}
    (h : s.Awaits i j) (hij : i ≠ j) (hw : s.worker = .examine b t) : t.id ≠ j := by
  rcases h with h | hr
  · rintro rfl
    have hall := Line.all_of_head (head_of_examine hw)
    have hmem := h.mem
    rw [hall] at hmem
    refine h.order ?_
    rw [hall]
    exact before_cons_of_mem ((List.mem_cons.mp hmem).resolve_left hij)
  · rw [hw] at hr
    cases hr

/-- Task `k` is not between `i` and `j`: once `i` is run, it is not before `j`. -/
structure Apart (i k j : Nat) (s : Thread F) : Prop where
  mem : j ∈ s.line.all
  order : s.worker.isRunning i = true ∨ Before i k s.line.all → ¬ Before k j s.line.all

theorem Apart.of_line {i k j : Nat} {s s' : Thread F} (h : s.Apart i k j)
    (hl : s'.line.all = s.line.all)
    (hr : s'.worker.isRunning i = true → s.worker.isRunning i = true) : s'.Apart i k j := by
  refine ⟨hl ▸ h.mem, ?_⟩
  rw [hl]
  exact fun hor => h.order (hor.imp_left hr)

/-- Another task comes behind them; if it is `k`, it was not in the queue. -/
theorem Apart.join {i k j m : Nat} {s s' : Thread F} (h : s.Apart i k j) (hm : m ≠ j)
    (hk : m = k → k ∉ s.line.all) (hl : s'.line = s.line.join m)
    (hr : s'.worker.isRunning i = true → s.worker.isRunning i = true) : s'.Apart i k j := by
  refine ⟨?_, ?_⟩
  · rw [hl, Line.all_join]
    exact List.mem_append_left _ h.mem
  · rw [hl, Line.all_join, before_concat, before_concat]
    rintro hor (hkj | ⟨-, rfl⟩)
    · rcases hor with hrun | hik | ⟨-, rfl⟩
      · exact h.order (.inl (hr hrun)) hkj
      · exact h.order (.inr hik) hkj
      · exact hk rfl hkj.mem.1
    · exact hm rfl

/-- The task that is examined leaves the queue; where it is `i`, the others keep their order. -/
theorem Apart.take {i k j : Nat} {s s' : Thread F} {b : Batch} {t : Tuple F}
    (h : s.Apart i k j) (hw : s.worker = .examine b t) (hj : t.id ≠ j)
    (hl : s'.line = s.line.take) (hr : s'.worker.isRunning i = true → t.id = i) :
    s'.Apart i k j := by
  have hall := Line.all_of_head (head_of_examine hw)
  have hmem := h.mem
  have horder := h.order
  rw [hall] at hmem horder
  refine ⟨?_, ?_⟩
  · rw [hl]
    exact (List.mem_cons.mp hmem).resolve_left (Ne.symm hj)
  · rw [hl]
    intro hor hkj
    refine horder (.inr ?_) (hkj.cons _)
    rcases hor with hrun | hik
    · rw [hr hrun]
      exact before_cons_of_mem hkj.mem.1
    · exact hik.cons _

/-- No step puts `k` between the two while `i` waits or is run. -/
theorem Apart.step {i k j : Nat} {s s' : Thread F} {a : Action F} (h : s.Apart i k j)
    (hawaits : s.Awaits i j) (hij : i ≠ j) (ha : s.Serves a s') (hnodup : s.places.Nodup)
    (hk : ∀ p ts, s.pushes k = some p → p.stage ≠ .stamped ts)
    (hj : ∀ p ts, s.pushes j = some p → p.stage ≠ .stamped ts) : s'.Apart i k j := by
  cases ha with
  | stay hs | begin hs | stage hs =>
    exact h.of_line (by rw [hs.line]) (fun hr => (hs.isRunning i).symm.trans hr)
  | @arrive m _ p ts _ hm hst hw _ hl =>
    refine h.join ?_ ?_ hl (fun hr => hw ▸ hr)
    · rintro rfl
      exact hj p ts hm hst
    · rintro rfl
      exact absurd hst (hk p ts hm)
  | start _ hw' _ hl =>
    refine h.of_line (by rw [hl, Line.all_start]) (fun hr => ?_)
    rw [hw'] at hr
    cases hr
  | pop hw _ hl | again hw _ _ hl | stamp hw _ hl | retire hw _ hl =>
    refine h.of_line (by rw [hl]) (fun hr => ?_)
    rw [hw.after] at hr
    cases hr
  | early hw _ _ hl | drop hw _ _ hl =>
    refine h.take hw.before (hawaits.not_examine hij hw.before) hl (fun hr => ?_)
    rw [hw.after] at hr
    cases hr
  | run hw _ _ hl =>
    refine h.take hw.before (hawaits.not_examine hij hw.before) hl (fun hr => ?_)
    rw [hw.after] at hr
    exact of_decide_eq_true hr
  | @requeue _ b _ t _ hw _ hl =>
    have hhand : s.worker.hand = some t := by rw [hw.before]; rfl
    have hnot := not_mem_line_of_hand hnodup hhand (by simp [hw.before])
    refine h.join ?_ ?_ hl (fun hr => ?_)
    · rintro rfl
      exact hnot h.mem
    · rintro rfl
      exact hnot
    · rw [hw.after] at hr
      cases hr
  | throw _ hw' _ hl =>
    refine h.of_line (by rw [hl, Line.all_stop]) (fun hr => ?_)
    rw [hw'] at hr
    split at hr <;> cases hr
  | finish _ hw' _ hl =>
    refine h.of_line (by rw [hl, Line.all_stop]) (fun hr => ?_)
    generalize s'.worker = w' at hw' hr
    cases w' with
    | running => cases hw'
    | _ => cases hr

/-- The end of a functor leaves the queue as it is. -/
theorem Serves.all_of_functorEnds {s s' : Thread F} {i : Nat} {o : Outcome}
    (h : s.Serves (.functorEnds i o) s') : s'.line.all = s.line.all := by
  cases h with
  | stay hs => rw [hs.line]
  | again _ _ _ hl | retire _ _ hl => rw [hl]
  | throw _ _ _ hl => rw [hl, Line.all_stop]

/-- While the worker is in a functor, only pushes change the line. -/
theorem Serves.of_running {s s' : Thread F} {a : Action F} {b : Batch} {t : Tuple F}
    (h : s.Serves a s') (hw : s.worker = .running b t) (hends : ∀ i o, a ≠ .functorEnds i o) :
    s'.worker = s.worker ∧ s'.retired = s.retired ∧ (s'.line = s.line ∨
      ∃ m p ts, s.pushes m = some p ∧ p.stage = .stamped ts ∧ s'.line = s.line.join m) := by
  have hstill : s.Still s' → s'.worker = s.worker ∧ s'.retired = s.retired ∧ s'.line = s.line := by
    intro hs
    rcases hs.worker with hw' | ⟨hout, -⟩
    · exact ⟨hw', hs.retired, hs.line⟩
    · rw [hw] at hout
      cases hout
  have hworks : ∀ {w w'}, s.Works s' w w' → w = .running b t := fun hw' => hw'.before.symm.trans hw
  cases h with
  | stay hs | begin hs | stage hs =>
    obtain ⟨hw', hr, hl⟩ := hstill hs
    exact ⟨hw', hr, .inl hl⟩
  | arrive hm hst hw' _ hl hr => exact ⟨hw', hr, .inr ⟨_, _, _, hm, hst, hl⟩⟩
  | start hout =>
    rw [hw] at hout
    cases hout
  | pop hw' | early hw' | run hw' | drop hw' | stamp hw' | requeue hw' => cases hworks hw'
  | again | retire | throw => exact absurd rfl (hends _ _)
  | finish hw' => cases hw.symm.trans hw'

/-- A task that the batch does not come to: it is behind the batch, or not yet pushed. -/
structure Behind (i : Nat) (s : Thread F) : Prop where
  ahead : i ∉ s.line.ahead
  retired : i ∉ s.retired

theorem Sound.behind {s : Thread F} (h : s.Sound) {i : Nat} (hi : s.pushes i = none) :
    s.Behind i ∧ i ∉ s.line.all := by
  have hplaces := h.not_mem_of_pushes hi
  have hall : i ∉ s.line.all := fun hmem =>
    hplaces (List.mem_append_left _ (mem_tuples_of_mem_line hmem))
  exact ⟨⟨fun hmem => hall (List.mem_append_left _ hmem),
    fun hret => hplaces (List.mem_append_right _ hret)⟩, hall⟩

/-- A functor that goes on leaves the batch as it is, and nothing comes before what is queued. -/
theorem Sound.of_running {s s' : Thread F} {a : Action F} {x : Nat} (h : s.Sound)
    (hs : Thread.step s a = some s') (hx : s.worker.isRunning x = true)
    (hends : ∀ i o, a ≠ .functorEnds i o) :
    s'.worker.isRunning x = true ∧ (∀ i, s.Behind i → s'.Behind i) ∧
      ∀ i j, (∀ p ts, s.pushes j = some p → p.stage ≠ .stamped ts) →
        ¬ Before i j s.line.all → ¬ Before i j s'.line.all := by
  obtain ⟨b, t, hw⟩ : ∃ b t, s.worker = .running b t := by
    cases hw : s.worker with
    | running b t => exact ⟨b, t, rfl⟩
    | _ =>
      rw [hw] at hx
      cases hx
  obtain ⟨hw', hr, hl⟩ := (step_serves h.fits hs).of_running hw hends
  refine ⟨hw' ▸ hx, ?_, ?_⟩
  · intro i hi
    refine ⟨?_, hr ▸ hi.retired⟩
    rcases hl with hl | ⟨m, p, ts, -, -, hl⟩
    · exact hl ▸ hi.ahead
    · rw [hl]
      exact hi.ahead
  · intro i j hj hbefore
    rcases hl with hl | ⟨m, p, ts, hm, hst, hl⟩
    · exact hl ▸ hbefore
    · rw [hl, Line.all_join, before_concat]
      rintro (hij | ⟨-, rfl⟩)
      · exact hbefore hij
      · exact hj p ts hm hst

/-- The batch does not come to the one or the other. -/
theorem punctual_of_behind {i j k : Nat} {s : Thread F} (h : s.Behind j)
    (hin : s.worker.inBatch = true) (hj : j = i ∨ j = k) : s.Punctual i k := by
  intro t _ _ hahead
  obtain ⟨hi, hk⟩ := hahead hin
  rcases hj with rfl | rfl
  · exact absurd hi h.ahead
  · exact absurd hk h.ahead

end Thread

end FHT.Task
