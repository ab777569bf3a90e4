import FHT.Hendler.FhtMain
import FHT.Hendler.Snapshots

/-!
# The registry on its thread is the registry under concurrent clients

`Shared` has the posted updates in a list and says nothing about when they run. Here they are
tasks of `FHT_MAIN`, and every step of it is a run of `Shared`. The loop task compares when it
begins, but only tasks of `FHT_MAIN` change the working maps, so it may as well compare right
before its first swap.

## Main definitions

- `FhtMain.Posted` — the calls whose updates are posted and not yet run
- `FhtMain.Simulated` — the state of the thread against the state of `Shared`

## Main results

- `FhtMain.Simulated.step`, `FhtMain.run_simulated`
- `FhtMain.lookups` — what a lookup on the thread sees
-/

namespace FHT.Hendler.FhtMain

open FHT.Task

variable {U L F : Type*} {w w' : FhtMain U L F}

/-- The calls `ids` have posted `posted`, one each, and these are all that is still to be run. -/
structure Posted (w : FhtMain U L F) (ids : List Nat) (posted : List (Update U ⊕ Update L)) :
    Prop where
  nodup : ids.Nodup
  mem_iff : ∀ i u, w.calls i = some (some u) → (i ∈ ids ↔ w.thread.Pending i)
  updates : ids.map w.calls = posted.map fun u => some (some u)

section Posted

variable {ids : List Nat} {posted : List (Update U ⊕ Update L)} {i : Nat} {u : Update U ⊕ Update L}

theorem Sound.pending_step {a : Thread.Action (Job U L F)} (h : w.Sound)
    (hi : w.calls i = some (some u)) (hs : Thread.step w.thread a = some w'.thread) :
    w'.thread.Pending i ↔
      (w.thread.Pending i ∨ ∃ function ms, a = .pushBegin i function ms) ∧
        ∀ o, a ≠ .functorEnds i o := by
  refine h.thread.pending_step hs fun p hp => ?_
  obtain ⟨u', -, hf, -⟩ := h.posted i _ p hi hp
  exact ⟨_, hf⟩

/-- A step that neither posts an update nor runs one. -/
theorem Posted.beside {a : Thread.Action (Job U L F)} (h : w.Posted ids posted) (hw : w.Sound)
    (hs : Thread.step w.thread a = some w'.thread) (hcalls : w'.calls = w.calls)
    (hbegin : ∀ i u, w.calls i = some (some u) → ∀ function ms, a ≠ .pushBegin i function ms)
    (hends : ∀ i u, w.calls i = some (some u) → ∀ o, a ≠ .functorEnds i o) :
    w'.Posted ids posted := by
  refine ⟨h.nodup, ?_, hcalls ▸ h.updates⟩
  intro i u hi
  rw [hcalls] at hi
  rw [h.mem_iff i u hi, hw.pending_step hi hs]
  constructor
  · exact fun hpending => ⟨.inl hpending, hends i u hi⟩
  · rintro ⟨hpending | ⟨function, ms, ha⟩, -⟩
    · exact hpending
    · exact absurd ha (hbegin i u hi function ms)

/-- A call begins. -/
theorem Posted.begin (h : w.Posted ids posted) (hi : w.calls i = none)
    (hp : w.thread.pushes i = none) (c : Option (Update U ⊕ Update L)) :
    { w with calls := Function.update w.calls i (some c) }.Posted ids posted := by
  have hnot : i ∉ ids := by
    intro hmem
    have hcall : w.calls i ∈ ids.map w.calls := List.mem_map_of_mem hmem
    rw [h.updates, hi] at hcall
    simp at hcall
  refine ⟨h.nodup, ?_, ?_⟩
  · intro j u hj
    by_cases hji : j = i
    · subst hji
      exact iff_of_false hnot fun hpending => hpending.1 hp
    · have hj : Function.update w.calls i (some c) j = some (some u) := hj
      rw [Function.update_of_ne hji] at hj
      exact h.mem_iff j u hj
  · rw [← h.updates]
    refine List.map_congr_left fun j hj => Function.update_of_ne ?_ ..
    rintro rfl
    exact hnot hj

/-- A call posts its update. -/
theorem Posted.post {function : Functor (Job U L F)} {ms : Int} (h : w.Posted ids posted)
    (hw : w.Sound) (hi : w.calls i = some (some u))
    (hs : Thread.step w.thread (.pushBegin i function ms) = some w'.thread)
    (hcalls : w'.calls = w.calls) : w'.Posted (ids ++ [i]) (posted ++ [u]) := by
  have hnone := (Thread.eq_of_begin hs).1
  refine ⟨?_, ?_, ?_⟩
  · have hnot : i ∉ ids := fun hmem => ((h.mem_iff i u hi).mp hmem).1 hnone
    exact List.nodup_append.mpr ⟨h.nodup, List.nodup_singleton i,
      fun a ha b hb => by rintro rfl; exact hnot (List.mem_singleton.mp hb ▸ ha)⟩
  · intro j v hj
    rw [hcalls] at hj
    rw [List.mem_append, List.mem_singleton, h.mem_iff j v hj, hw.pending_step hj hs]
    simp [eq_comm]
  · rw [hcalls, List.map_append, List.map_append, h.updates]
    simp [hi]

/-- The update of a call is run, wherever it stands. -/
theorem Posted.ran {o : Outcome} (h : w.Posted ids posted) (hw : w.Sound)
    (hi : w.calls i = some (some u)) (hpending : w.thread.Pending i)
    (hs : Thread.step w.thread (.functorEnds i o) = some w'.thread)
    (hcalls : w'.calls = w.calls) : ∃ k ids', posted[k]? = some u ∧
      w'.Posted ids' (posted.eraseIdx k) := by
  obtain ⟨l, r, rfl⟩ := List.append_of_mem ((h.mem_iff i u hi).mpr hpending)
  have hupdates := h.updates
  rw [List.map_append, List.map_cons, eq_comm, List.map_eq_append_iff] at hupdates
  obtain ⟨pl, pr, rfl, hl, hr⟩ := hupdates
  obtain ⟨u', pr, rfl, hu, hr⟩ := List.map_eq_cons_iff.mp hr
  obtain rfl : u' = u := Option.some.inj (Option.some.inj (hu.trans hi))
  have hnodup := List.nodup_middle.mp h.nodup
  refine ⟨pl.length, l ++ r, by simp, (List.nodup_cons.mp hnodup).2, ?_, ?_⟩
  · intro j v hj
    rw [hcalls] at hj
    rw [hw.pending_step hj hs, ← h.mem_iff j v hj]
    by_cases hji : j = i
    · subst hji
      have hnot := (List.nodup_cons.mp hnodup).1
      simp [hnot]
    · have hij : i ≠ j := Ne.symm hji
      simp [hji, hij]
  · rw [hcalls, List.map_append, List.eraseIdx_append_of_length_le (Nat.le_refl _),
      Nat.sub_self, List.eraseIdx_cons_zero, List.map_append, hl, hr]

end Posted

/-- The tables are the same; what `Shared` has posted waits on the thread, and it is inside the
publish only where the loop task has done its first swap. -/
structure Simulated (w : FhtMain U L F) (s : Shared U L) : Prop where
  consistent : s.Consistent
  mapHendler : s.hendler.mapHendler = w.mapHendler
  mapList : s.hendler.mapList = w.mapList
  calls : ∀ i, w.thread.pushes i = none → s.calls i = w.calls i
  posted : ∃ ids, w.Posted ids s.posted
  free : s.mapHendler.publishing = none
  swapped : s.mapList.publishing ≠ none →
    s.mapHendler.published = s.mapHendler.working ∧
      ∃ b t, w.thread.worker = .running b t ∧ t.function.func = some .publish

theorem simulated_init : (init : FhtMain U L F).Simulated Shared.init := by
  refine ⟨Shared.consistent_init, rfl, rfl, fun _ _ => rfl, ⟨[], List.nodup_nil, ?_, rfl⟩, rfl,
    fun hsome => absurd rfl hsome⟩
  intro i u hi
  cases hi

variable {s : Shared U L}

theorem Simulated.decides (h : w.Simulated s) (c : Call U L) : s.decides c = w.decides c := by
  cases c <;> simp [Shared.decides, FhtMain.decides, h.mapHendler, h.mapList]

theorem Sound.pushes_none {a : Thread.Action (Job U L F)} {i : Nat} (h : w.Sound)
    (hs : Thread.step w.thread a = some w'.thread) (hi : w'.thread.pushes i = none) :
    w.thread.pushes i = none := by
  cases hp : w.thread.pushes i with
  | none => rfl
  | some p =>
    obtain ⟨p', hp', -⟩ := (Thread.step_serves h.thread.fits hs).pushes_kept hp
    cases hi.symm.trans hp'

/-- Where the loop task is not inside its publish, the thread is free for `Shared`. -/
theorem Simulated.mainFree (h : w.Simulated s) (hnone : s.mapList.publishing = none) : s.mainFree :=
  (Shared.mainFree_iff s).mpr ⟨h.free, hnone⟩

theorem Simulated.publishing_none {b : Batch} {t : Tuple (Job U L F)} {job : Job U L F}
    (h : w.Simulated s) (hw : w.thread.worker = .running b t)
    (hf : t.function.func = some job) (hjob : job ≠ .publish) :
    s.mapList.publishing = none := by
  by_contra hpublishing
  obtain ⟨-, b', t', hw', hf'⟩ := h.swapped hpublishing
  obtain ⟨rfl, rfl⟩ := Worker.running.inj (hw.symm.trans hw')
  exact hjob (Option.some.inj (hf.symm.trans hf'))

/-- A step of the thread that neither calls nor changes a table. -/
theorem Simulated.beside {a : Thread.Action (Job U L F)} (h : w.Simulated s) (hw : w.Sound)
    (hs : Thread.step w.thread a = some w'.thread) (hcalls : w'.calls = w.calls)
    (hmaps : w'.mapHendler = w.mapHendler ∧ w'.mapList = w.mapList)
    (hbegin : ∀ i u, w.calls i = some (some u) → ∀ function ms, a ≠ .pushBegin i function ms)
    (hends : ∀ i u, w.calls i = some (some u) → ∀ o, a ≠ .functorEnds i o)
    (hworker : s.mapList.publishing = none ∨ ∀ i o, a ≠ .functorEnds i o) :
    w'.Simulated s := by
  obtain ⟨ids, hposted⟩ := h.posted
  refine ⟨h.consistent, h.mapHendler.trans hmaps.1.symm, h.mapList.trans hmaps.2.symm, ?_,
    ⟨ids, hposted.beside hw hs hcalls hbegin hends⟩, h.free, ?_⟩
  · intro i hi
    rw [hcalls]
    exact h.calls i (hw.pushes_none hs hi)
  · intro hpublishing
    obtain ⟨hshown, b, t, hrun, hf⟩ := h.swapped hpublishing
    have hno := hworker.resolve_left hpublishing
    obtain ⟨hsame, -⟩ := (Thread.step_serves hw.thread.fits hs).of_running hrun hno
    exact ⟨hshown, b, t, hsame.trans hrun, hf⟩

/-- The functor that ends is not the update of a call. -/
theorem Sound.not_update {b : Batch} {t : Tuple (Job U L F)} {job : Job U L F} {o : Outcome}
    (h : w.Sound) (hw : w.thread.worker = .running b t) (hf : t.function.func = some job)
    (hjob : ∀ u, job ≠ .update u) :
    ∀ i u, w.calls i = some (some u) → ∀ o',
      (.functorEnds t.id o : Thread.Action (Job U L F)) ≠ .functorEnds i o' := by
  rintro i u hi o' ha
  obtain ⟨rfl, -⟩ := Thread.Action.functorEnds.inj ha
  obtain ⟨q, hq, hqf, -⟩ := h.running_push hw hf
  obtain ⟨u', -, hupdate, -⟩ := h.posted t.id _ q hi hq
  rw [hupdate] at hqf
  exact hjob u' (Option.some.inj hqf).symm

theorem examine_tables (w : FhtMain U L F) :
    w.examine.mapHendler = w.mapHendler ∧ w.examine.mapList = w.mapList := by
  rw [examine]
  split <;> exact ⟨rfl, rfl⟩

section Publish

variable [DecidableEq U] [DecidableEq L]

/-- A call reads the pointer. -/
theorem Simulated.begin {i : Nat} {c : Call U L} (h : w.Simulated s) (hi : w.calls i = none)
    (hp : w.thread.pushes i = none) : ∃ acts s', Shared.step.run s acts = some s' ∧
      { w with calls := Function.update w.calls i (some (w.decides c)) }.Simulated s' := by
  have hcall : s.calls i = none := (h.calls i hp).trans hi
  obtain ⟨ids, hposted⟩ := h.posted
  refine ⟨[.begin i c], { s with calls := Function.update s.calls i (some (s.decides c)) },
    by simp [Machine.run_cons, Shared.step, hcall], h.consistent, h.mapHendler, h.mapList, ?_,
    ⟨ids, hposted.begin hi hp _⟩, h.free, h.swapped⟩
  intro j hj
  by_cases hji : j = i
  · subst hji
    simp [h.decides]
  · simp [hji, h.calls j hj]

/-- A call posts what it has decided. -/
theorem Simulated.post {i : Nat} {u : Update U ⊕ Update L} {function : Functor (Job U L F)}
    {ms : Int} (h : w.Simulated s) (hw : w.Sound) (hi : w.calls i = some (some u))
    (hs : Thread.step w.thread (.pushBegin i function ms) = some w'.thread)
    (hw' : w' = { w with thread := w'.thread }) :
    ∃ acts s', Shared.step.run s acts = some s' ∧ w'.Simulated s' := by
  have hcall : s.calls i = some (some u) :=
    (h.calls i (Thread.eq_of_begin hs).1).trans hi
  have hcalls : w'.calls = w.calls := by rw [hw']
  obtain ⟨ids, hposted⟩ := h.posted
  refine ⟨[.post i], { s with
      posted := s.posted ++ [u]
      calls := Function.update s.calls i none },
    by simp [Machine.run_cons, Shared.step, hcall], h.consistent, ?_, ?_, ?_,
    ⟨_, hposted.post hw hi hs hcalls⟩, h.free, ?_⟩
  · rw [hw']
    exact h.mapHendler
  · rw [hw']
    exact h.mapList
  · intro j hj
    have hji : j ≠ i := by
      rintro rfl
      rw [(Thread.eq_of_begin hs).2] at hj
      simp at hj
    rw [hcalls]
    exact (Function.update_of_ne hji ..).trans (h.calls j (hw.pushes_none hs hj))
  · intro hpublishing
    obtain ⟨hshown, b, t, hrun, hf⟩ := h.swapped hpublishing
    rw [(Thread.eq_of_begin hs).2]
    exact ⟨hshown, b, t, hrun, hf⟩

/-- An update ends. -/
theorem Simulated.update {b : Batch} {t : Tuple (Job U L F)} {o : Outcome}
    {u : Update U ⊕ Update L} (h : w.Simulated s) (hw : w.Sound)
    (hrun : w.thread.worker = .running b t) (hf : t.function.func = some (.update u))
    (hs : Thread.step w.thread (.functorEnds t.id o) = some w'.thread)
    (hw' : w' = { w.execute (.update u) with thread := w'.thread }) :
    ∃ acts s', Shared.step.run s acts = some s' ∧ w'.Simulated s' := by
  have hnone := h.publishing_none hrun hf (by simp)
  have hfree := h.mainFree hnone
  obtain ⟨q, hq, hqf, hret⟩ := hw.running_push hrun hf
  have hcall : w.calls t.id = some (some u) := hw.asked t.id q _ hq hqf
  have hcalls : w'.calls = w.calls := by
    rw [hw']
    exact (w.execute_rest _).2.1
  obtain ⟨ids, hposted⟩ := h.posted
  obtain ⟨k, ids', hk, hposted'⟩ :=
    hposted.ran hw hcall ⟨by simp [hq], hret⟩ hs hcalls
  refine ⟨[.runPosted k], { s.execute u with posted := s.posted.eraseIdx k }, ?_, ?_⟩
  · simp [Machine.run_cons, Shared.step, hfree, hk]
  · rw [hw']
    refine ⟨(h.consistent.execute hfree u).1, ?_, ?_, ?_, ⟨ids', hw' ▸ hposted'⟩, ?_, ?_⟩
    · cases u with
      | inl u =>
        rw [execute, ← h.mapHendler]
        rfl
      | inr u => exact h.mapHendler
    · cases u with
      | inl u => exact h.mapList
      | inr u =>
        rw [execute, ← h.mapList]
        rfl
    · intro i hi
      have hold := h.calls i (hw.pushes_none hs hi)
      cases u <;> exact hold
    · cases u <;> exact h.free
    · intro hpublishing
      cases u <;> exact absurd hnone hpublishing

theorem Simulated.publish_eq (h : w.Simulated s) :
    w.mapHendler.publish = ⟨s.mapHendler.working, s.mapHendler.working⟩ ∧
      w.mapList.publish = ⟨s.mapList.working, s.mapList.working⟩ := by
  rw [Published.publish_eq, Published.publish_eq, ← h.mapHendler, ← h.mapList]
  exact ⟨rfl, rfl⟩

/-- The loop task ends: with its second swap, or with both. -/
theorem Simulated.publish {b : Batch} {t : Tuple (Job U L F)} {o : Outcome}
    (h : w.Simulated s) (hw : w.Sound)
    (hrun : w.thread.worker = .running b t) (hf : t.function.func = some .publish)
    (hs : Thread.step w.thread (.functorEnds t.id o) = some w'.thread)
    (hw' : w' = { w.execute .publish with thread := w'.thread }) :
    ∃ acts s', Shared.step.run s acts = some s' ∧ w'.Simulated s' := by
  have hcalls : w'.calls = w.calls := by
    rw [hw']
    exact (w.execute_rest _).2.1
  obtain ⟨ids, hposted⟩ := h.posted
  have hposted' := hposted.beside hw hs hcalls (by simp) (hw.not_update hrun hf (by simp))
  have hcalls' : ∀ i, w'.thread.pushes i = none → s.calls i = w'.calls i := by
    intro i hi
    rw [hcalls]
    exact h.calls i (hw.pushes_none hs hi)
  have hmaps : w'.mapHendler = ⟨s.mapHendler.working, s.mapHendler.working⟩ := by
    rw [hw']
    exact h.publish_eq.1
  have hlist : w'.mapList = ⟨s.mapList.working, s.mapList.working⟩ := by
    rw [hw']
    exact h.publish_eq.2
  cases hpublishing : s.mapList.publishing with
  | none =>
    obtain ⟨t, ht, hp, hc, hfree, hwu, hwl, hpu, hpl⟩ :=
      Shared.run_tick h.consistent (h.mainFree hpublishing)
    have hnone := (Shared.mainFree_iff t).mp hfree
    refine ⟨_, t, ht, (Shared.run_consistent h.consistent ht).1, ?_, ?_, hc ▸ hcalls',
      ⟨ids, hp ▸ hposted'⟩, hnone.1, fun hsome => absurd hnone.2 hsome⟩
    · rw [hmaps, Shared.hendler, hpu, hwu]
    · rw [hlist, Shared.hendler, hpl, hwl]
  | some new =>
    obtain ⟨hshown, -⟩ := h.swapped (by simp [hpublishing])
    refine ⟨[.swapList], { s with mapList := s.mapList.swap },
      by simp [Machine.run_cons, Shared.step, h.free, hpublishing],
      ⟨h.consistent.1, h.consistent.2.swap⟩, ?_, ?_, hcalls', ⟨ids, hposted'⟩, h.free,
      fun hsome => absurd s.mapList.swap_publishing hsome⟩
    · rw [hmaps, Shared.hendler, hshown]
    · rw [hlist, Shared.hendler, h.consistent.2.swap_published hpublishing,
        Snapshot.swap_working]

/-- The first swap of the loop task; done again it does nothing. -/
theorem Simulated.swap {b : Batch} {t : Tuple (Job U L F)} (h : w.Simulated s)
    (hrun : w.thread.worker = .running b t) (hf : t.function.func = some .publish) :
    ∃ acts s', Shared.step.run s acts = some s' ∧
      { w with mapHendler := w.mapHendler.publish }.Simulated s' := by
  obtain ⟨ids, hposted⟩ := h.posted
  cases hpublishing : s.mapList.publishing with
  | none =>
    have hfree := h.mainFree hpublishing
    have hcompare := h.consistent.1.compare
    refine ⟨[.compare, .swapHendler], { s with
        mapHendler := s.mapHendler.compare.swap
        mapList := s.mapList.compare }, ?_, ⟨hcompare.swap, h.consistent.2.compare⟩, ?_,
      h.mapList, h.calls, ⟨ids, hposted.nodup, hposted.mem_iff, hposted.updates⟩,
      s.mapHendler.compare.swap_publishing, ?_⟩
    · have hstep : s.mapHendler.compare.publishing.isSome := rfl
      simp [Machine.run_cons, Shared.step, hfree, hstep]
    · show (⟨_, _⟩ : Published U) = w.mapHendler.publish
      rw [h.publish_eq.1, hcompare.swap_published rfl, Snapshot.swap_working]
      rfl
    · exact fun _ => ⟨hcompare.swap_published rfl, b, t, hrun, hf⟩
  | some new =>
    obtain ⟨hshown, -⟩ := h.swapped (by simp [hpublishing])
    refine ⟨[], s, rfl, h.consistent, ?_, h.mapList, h.calls,
      ⟨ids, hposted.nodup, hposted.mem_iff, hposted.updates⟩, h.free,
      fun _ => ⟨hshown, b, t, hrun, hf⟩⟩
    show _ = w.mapHendler.publish
    rw [h.publish_eq.1, Shared.hendler, hshown]

theorem Simulated.step {a : Action U L F} (h : w.Simulated s) (hw : w.Sound)
    (hs : FhtMain.step w a = some w') :
    ∃ acts s', Shared.step.run s acts = some s' ∧ w'.Simulated s' := by
  cases step_moves hs with
  | @construct i _ hp hs hw' =>
    have hno : ∀ i, w.calls i = none := hw.noCalls hp
    refine ⟨[], s, rfl, h.beside hw hs (by rw [hw']) (by rw [hw']; exact ⟨rfl, rfl⟩) ?_ ?_
      (.inr (by simp))⟩
    · intro i u hi
      cases (hno i).symm.trans hi
    · simp
  | begin _ hi hp => exact h.begin hi hp
  | post hi hs hw' => exact h.post hw hi hs hw'
  | @user i function ms _ hi hs hw' =>
    refine ⟨[], s, rfl, h.beside hw hs (by rw [hw']) (by rw [hw']; exact ⟨rfl, rfl⟩) ?_
      (by simp) (.inr (by simp))⟩
    rintro j u hj _ _ ⟨⟩
    cases hi.symm.trans hj
  | swap hrun hf => exact h.swap hrun hf
  | worker hs hw' =>
    obtain ⟨hmaps, hlist⟩ := w.examine_tables
    refine ⟨[], s, rfl, h.beside hw hs ?_ ?_ (by simp) (by simp) (.inr (by simp))⟩
    · rw [hw']
      exact w.examine_rest.2
    · rw [hw']
      exact ⟨hmaps, hlist⟩
  | @beside a a' _ ha hs hw' =>
    refine ⟨[], s, rfl, h.beside hw hs (by rw [hw']) (by rw [hw']; exact ⟨rfl, rfl⟩) ?_ ?_
      (.inr ?_)⟩
    all_goals
      cases a with
      | push | timer | destructor | spurious =>
        obtain rfl := Option.some.inj ha
        simp
      | _ => cases ha
  | @ends b t job o _ hrun hf _ hs hw' =>
    cases job with
    | publish => exact h.publish hw hrun hf hs hw'
    | update u => exact h.update hw hrun hf hs hw'
    | user func =>
      refine ⟨[], s, rfl, h.beside hw hs (by rw [hw']; rfl) (by rw [hw']; exact ⟨rfl, rfl⟩)
        (by simp) (hw.not_update hrun hf (by simp)) (.inl ?_)⟩
      exact h.publishing_none hrun hf (by simp)

theorem Simulated.run {acts : List (Action U L F)} (h : w.Simulated s) (hw : w.Sound)
    (hrun : FhtMain.step.run w acts = some w') :
    ∃ acts' s', Shared.step.run s acts' = some s' ∧ w'.Sound ∧ w'.Simulated s' := by
  refine Machine.run_simulated (R := fun w s => w.Sound ∧ w.Simulated s) ?_ ⟨hw, h⟩ hrun
  rintro u t a v ⟨hu, hsim⟩ hs
  obtain ⟨acts', t', ht', hsim'⟩ := hsim.step hu hs
  exact ⟨acts', t', ht', hu.step hs, hsim'⟩

/-- Every run of the registry on its thread is one under concurrent clients. -/
theorem run_simulated {acts : List (Action U L F)} (hrun : step.run init acts = some w) :
    ∃ acts' s, Shared.step.run Shared.init acts' = some s ∧ w.Simulated s := by
  obtain ⟨acts', s, hs, -, hsim⟩ := simulated_init.run sound_init hrun
  exact ⟨acts', s, hs, hsim⟩

omit [DecidableEq U] [DecidableEq L] in
/-- A lookup finds what was registered first since the id was last erased, among the updates
that are shown. -/
theorem Simulated.lookup (h : w.Simulated s) (id : Str) :
    w.getUniqueHendler id = firstSinceErased id s.shownHendler ∧
      w.getHendler id = firstSinceErased id s.shownList := by
  rw [← getElem?_tableAfter, ← getElem?_tableAfter, ← h.consistent.getUniqueHendler,
    ← h.consistent.getHendler, getUniqueHendler, getHendler, ← h.mapHendler, ← h.mapList]
  exact ⟨rfl, rfl⟩

/-- In every run on the thread a lookup sees some of the first executed updates, and never
fewer than an earlier one. -/
theorem lookups {pre post : List (Action U L F)} (hw : step.run init pre = some w)
    (hw' : step.run w post = some w') : ∃ acts acts' s s',
      Shared.step.run Shared.init acts = some s ∧ Shared.step.run s acts' = some s' ∧
      s.shownHendler <+: s'.shownHendler ∧ s.shownList <+: s'.shownList ∧
      ∀ id, (w.getUniqueHendler id = firstSinceErased id s.shownHendler ∧
          w.getHendler id = firstSinceErased id s.shownList) ∧
        w'.getUniqueHendler id = firstSinceErased id s'.shownHendler ∧
          w'.getHendler id = firstSinceErased id s'.shownList := by
  obtain ⟨acts, s, hs, hsim⟩ := run_simulated hw
  obtain ⟨acts', s', hs', -, hsim'⟩ := hsim.run (sound hw) hw'
  obtain ⟨hu, hl⟩ := (Shared.run_consistent hsim.consistent hs').2.shown hsim.consistent
  exact ⟨acts, acts', s, s', hs, hs', hu, hl, fun id => ⟨hsim.lookup id, hsim'.lookup id⟩⟩

end Publish

end FHT.Hendler.FhtMain
