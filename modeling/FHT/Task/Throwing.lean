import FHT.Task.Batch
import FHT.Task.Conservation

/-!
# A functor that throws

The handler of `Thread::loop` catches `std::exception` and leaves the rest of the batch for
the next one. The tasks that were queued are still there, so that the next batch counts them;
it examines all of them unless a second exception cuts it short.
-/

namespace FHT.Task.Thread

variable {F : Type*}

/-- Whether an exception has left `Thread::loop`. -/
def escaped (s : Thread F) : Bool :=
  match s.worker with
  | .terminated => true
  | _ => false

/-- The functor that throws between `s` and `s'` harms only its own task, in the run `acts`
after it: the exception stays in the loop, the tasks in the queue are still queued once, and
when the following batch is over it has examined them. -/
structure HarmsOnlyItself (s s' : Thread F) (acts : List (Action F)) : Prop where
  caught : s'.escaped = false
  queued_once : ∀ t ∈ s.queue, (s'.queue.map Tuple.id).count t.id = 1
  examined : ∀ pre, pre <+: acts → ∀ v, step.run s' pre = some v →
    v.batches = s.batches + 1 → v.worker.inBatch = false → ∀ t ∈ s.queue, t.id ∈ v.seen

/-- No functor throws in the batch after `s` while a task that is in the queue of `s` is still
to be examined in it. -/
def FollowingUndisturbed (s s' : Thread F) (acts : List (Action F)) : Prop :=
  step.Along (fun v a _ => v.batches = s.batches + 1 → (∃ t ∈ s.queue, t.id ∉ v.seen) →
    ∀ i e, a ≠ .functorEnds i (.throws e)) s' acts

/-- The tasks `old` on their way through the batch that follows batch `n`. -/
structure OnTheirWay (old : List (Tuple F)) (n : Nat) (v : Thread F) : Prop where
  fits : v.Fits
  le : n ≤ v.batches
  waiting : v.batches = n → v.worker.inBatch = false ∧ old <+: v.queue
  going : v.batches = n + 1 → v.worker.inBatch = true → ∀ t ∈ old, t.id ∈ v.seen ++ v.ahead
  done : v.batches = n + 1 → v.worker.inBatch = false → ∀ t ∈ old, t.id ∈ v.seen

theorem OnTheirWay.step {old : List (Tuple F)} {n : Nat} {u v : Thread F} {a : Action F}
    (hu : OnTheirWay old n u) (hstep : Thread.step u a = some v)
    (ha : u.batches = n + 1 → (∃ t ∈ old, t.id ∉ u.seen) → ∀ i e, a ≠ .functorEnds i (.throws e)) :
    OnTheirWay old n v := by
  obtain ⟨hprog, hfits⟩ := step_progress hu.fits hstep
  have hle := hu.le
  cases hprog with
  | wait hs hs' hb hq hseen =>
    refine ⟨hfits, hb ▸ hle, ?_, ?_, ?_⟩
    · exact fun hn => ⟨hs', (hu.waiting (hb ▸ hn)).2.trans hq⟩
    · exact fun _ hin => absurd (hs'.symm.trans hin) (by simp)
    · exact fun hn _ => hseen ▸ hu.done (hb ▸ hn) hs
  | count hs hs' hb hseen hahead =>
    refine ⟨hfits, by omega, by omega, ?_, ?_⟩
    · -- the batch that follows counts the whole queue
      intro hn _ t ht
      have hq := (hu.waiting (by omega)).2
      rw [hseen, hahead, List.nil_append]
      exact List.mem_map_of_mem (hq.subset ht)
    · exact fun _ hout => absurd (hs'.symm.trans hout) (by simp)
  | go hs hs' hb hplan =>
    refine ⟨hfits, hb ▸ hle, ?_, ?_, ?_⟩
    · exact fun hn => absurd (hs.symm.trans (hu.waiting (hb ▸ hn)).1) (by simp)
    · exact fun hn _ => hplan ▸ hu.going (hb ▸ hn) hs
    · exact fun _ hout => absurd (hs'.symm.trans hout) (by simp)
  | finish hs hs' hb hseen hahead =>
    refine ⟨hfits, hb ▸ hle, ?_, ?_, ?_⟩
    · exact fun hn => absurd (hs.symm.trans (hu.waiting (hb ▸ hn)).1) (by simp)
    · exact fun _ hin => absurd (hs'.symm.trans hin) (by simp)
    · intro hn _ t ht
      have hgoing := hu.going (hb ▸ hn) hs t ht
      rw [hahead, List.append_nil] at hgoing
      rwa [hseen]
  | @throw i e _ hs hs' hb hseen =>
    refine ⟨hfits, hb ▸ hle, ?_, ?_, ?_⟩
    · exact fun hn => absurd (hs.symm.trans (hu.waiting (hb ▸ hn)).1) (by simp)
    · exact fun _ hin => absurd (hs'.symm.trans hin) (by simp)
    · intro hn _ t ht
      rw [hseen]
      by_contra hunseen
      exact ha (hb ▸ hn) ⟨t, ht, hunseen⟩ i e rfl

/-- What a throwing functor leaves behind. -/
theorem functorEnds_throws {s s' : Thread F} {i : Nat} {e : Thrown}
    (h : s.functorEnds i (.throws e) = some s') :
    s'.queue = s.queue ∧ s'.batches = s.batches ∧ s'.seen = s.seen ∧
      s'.worker.inBatch = false ∧ s'.escaped = !e.isException := by
  cases functorEnds_cases h with
  | throw =>
    refine ⟨rfl, rfl, rfl, ?_, ?_⟩
    · cases e.isException <;> rfl
    · cases e.isException <;> rfl

/-- A functor that throws harms only its own task exactly if it throws a `std::exception` and
the following batch is not cut short before it has examined the others. -/
theorem harmsOnlyItself_iff {before acts : List (Action F)} {s s' : Thread F} {i : Nat}
    {e : Thrown} (hrun : step.run init before = some s)
    (hthrow : step s (.functorEnds i (.throws e)) = some s') :
    HarmsOnlyItself s s' acts ↔ e.isException ∧ FollowingUndisturbed s s' acts := by
  obtain ⟨hq, hb, _, hout, hesc⟩ := functorEnds_throws (act_of_step hthrow)
  constructor
  · intro h
    have hcaught := h.caught
    rw [hesc] at hcaught
    refine ⟨by simpa using hcaught, Machine.along_iff_forall.mpr ?_⟩
    rintro pre a post rfl u v hu hv hn ⟨t, ht, hunseen⟩ j e' rfl
    -- the second throw ends the batch, and `t` stays unseen
    have hrun' : step.run s' (pre ++ [.functorEnds j (.throws e')]) = some v :=
      Machine.run_concat_eq_some.mpr ⟨u, hu, hv⟩
    obtain ⟨_, hvb, hvseen, hvout, _⟩ := functorEnds_throws (act_of_step hv)
    have hpre : pre ++ [.functorEnds j (.throws e')] <+:
        pre ++ .functorEnds j (.throws e') :: post := ⟨post, by simp⟩
    exact hunseen (hvseen ▸ h.examined _ hpre v hrun' (hvb.trans hn) hvout t ht)
  · rintro ⟨hexc, hund⟩
    refine ⟨by rw [hesc, hexc]; rfl, ?_, ?_⟩
    · intro t ht
      have hnodup := places_nodup hrun
      simp only [places, tuples, List.map_append, List.append_assoc] at hnodup
      rw [hq]
      exact List.nodup_iff_count_eq_one.mp (List.nodup_append.mp hnodup).1 _
        (List.mem_map_of_mem ht)
    · rintro pre ⟨post, rfl⟩ v hv
      have hway : OnTheirWay s.queue s.batches v := by
        refine Machine.Along.history (I := fun _ v => OnTheirWay s.queue s.batches v)
          (fun _ _ _ _ hu hstep ha => hu.step hstep ha) ?_ (Machine.along_append.mp hund).1 hv
        refine ⟨(step_progress (fits hrun) hthrow).2, Nat.le_of_eq hb.symm,
          fun _ => ⟨hout, hq ▸ List.prefix_rfl⟩, ?_, ?_⟩
        · intro hn
          omega
        · intro hn
          omega
      exact hway.done

def workerSteps (n : Nat) : List (Action Unit) := List.replicate n (.worker 0)

/-- The first of three tasks is in its first run, the others are queued behind it. -/
def firstOfThree : List (Action Unit) :=
  (List.range 3).flatMap (pushed · (.postLoopTask ())) ++ workerSteps 4

/-- The rest of the batch is given up. The following one runs the second task, and then the third,
which throws in its turn. -/
def followingBatch : List (Action Unit) :=
  (workerSteps 7 ++ [.functorEnds 1 (.returns .CONTINUE)] ++ workerSteps 4) ++
    [.functorEnds 2 (.throws (.exception []))]

theorem harmsOnlyItself_iff_firstOfThree :
    ∃ s s' t, step.run init firstOfThree = some s ∧ s.queue.map Tuple.id = [1, 2] ∧
      step s (.functorEnds 0 (.throws (.exception []))) = some s' ∧
      step.run s' followingBatch = some t ∧ t.batches = s.batches + 1 ∧
      t.worker.inBatch = false ∧ t.seen = [1, 2] ∧ HarmsOnlyItself s s' followingBatch := by
  refine ⟨_, _, _, rfl, rfl, rfl, rfl, rfl, rfl, rfl, ?_⟩
  refine (harmsOnlyItself_iff (rfl : step.run init firstOfThree = some _)
    (rfl : step _ (.functorEnds 0 _) = some _)).mpr ⟨rfl, Machine.along_append.mpr ⟨?_, ?_⟩⟩
  · refine Machine.Along.imp (I := fun _ => True) (fun _ _ _ _ _ h => ⟨fun _ _ => h, trivial⟩)
      trivial (Machine.along_of_forall ?_)
    rintro a ha i e rfl
    simp [workerSteps] at ha
  · -- when the third task throws, both have been examined
    rintro u ⟨⟩
    refine (Machine.along_cons_of_step rfl).mpr ⟨fun _ hunseen => absurd hunseen ?_, trivial⟩
    decide

/-- The steps that bring a looping task with delay 0 into its first run. -/
def firstRun : List (Action Unit) := pushed 0 (.postLoopTask ()) ++ workerSteps 4

/-- The `const char*` of `Postgres::query_private` leaves the loop. -/
theorem cString_escapes :
    ∃ s s', step.run init firstRun = some s ∧
      step s (.functorEnds 0 (.throws (.cString "iPostgres not runing!".toList))) = some s' ∧
      ¬ HarmsOnlyItself s s' [] := by
  refine ⟨_, _, rfl, rfl, fun h => ?_⟩
  have hcaught := h.caught
  revert hcaught
  decide

end FHT.Task.Thread
