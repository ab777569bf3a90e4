import FHT.Task.Manager

/-!
# Threads by themselves

The threads of the task manager have nothing in common but the process. Without all that concerns
only the others, a run is still one for each of them.

## Main definitions

- `Manager.Purged` — a state without what the other threads have done

## Main results

- `Manager.undisturbed` — what the others do makes no difference to a thread
-/

namespace FHT.Task

namespace Manager

variable {F : Type*}

/-- The actions that concern the thread `k`. -/
def Action.concerns (k : Key) : Action F → Bool
  | .post _ name _ _ => name.index = k.val
  | .thread k' _ => k' = k
  | .erase k' => k' = k

/-- `s'` is `s` without what the threads other than `k` have done. -/
structure Purged (k : Key) (s s' : Manager F) : Prop where
  isRun : s'.isRun = s.isRun
  crashed : s'.crashed = true → s.crashed = true
  thread : s'.threads k = s.threads k
  others : ∀ j, j ≠ k → s'.threads j = .init
  entry : k ∈ s'.factory ↔ k ∈ s.factory
  calls : s'.calls = s.calls.filter fun c => c.2 = k
  clearing : k ∈ s'.factory → s'.clearing = none

section Purged

variable {k : Key} {s s' t : Manager F} {a : Action F}

theorem Purged.not_ended (h : Purged k s s') (hs : ¬ s.ended) : ¬ s'.ended := by
  rintro (hc | ⟨j, hj⟩)
  · exact hs (.inl (h.crashed hc))
  · by_cases hjk : j = k
    · subst hjk
      exact hs (.inr ⟨j, h.thread ▸ hj⟩)
    · rw [h.others j hjk] at hj
      cases hj

theorem Purged.getTaskThread (h : Purged k s s') {name : ListTask} (hk : name.index = k.val) :
    s'.getTaskThread name = if k ∈ s.factory then some k else none := by
  have hlt : name.index < ListTask.size.index := hk ▸ k.isLt
  obtain rfl : (⟨name.index, hlt⟩ : Key) = k := Fin.ext hk
  rw [Manager.getTaskThread, dif_pos hlt]
  exact if_congr h.entry rfl rfl

theorem getTaskThread_of_index {name : ListTask} (hk : name.index = k.val) :
    s.getTaskThread name = if k ∈ s.factory then some k else none := by
  have hlt : name.index < ListTask.size.index := hk ▸ k.isLt
  obtain rfl : (⟨name.index, hlt⟩ : Key) = k := Fin.ext hk
  rw [Manager.getTaskThread, dif_pos hlt]

theorem Purged.pushing (h : Purged k s s') : s'.pushing k = s.pushing k := by
  rw [Manager.pushing, Manager.pushing, h.calls, List.any_filter]
  simp only [Bool.and_self]

theorem Purged.allows (h : Purged k s s') (a : Thread.Action F) :
    s'.allows k a = s.allows k a := by
  cases a with
  | destructor => simp only [Manager.allows, h.thread, h.entry, h.pushing]
  | _ => rfl

theorem filter_callsAfter (s : Manager F) (j k : Key) (a : Thread.Action F) (u : Thread F) :
    (s.callsAfter j a u).filter (fun c => c.2 = k) =
      if j = k then Manager.callsAfter { s with calls := s.calls.filter fun c => c.2 = k } k a u
      else s.calls.filter fun c => c.2 = k := by
  have herase : ∀ i, (s.calls.erase (i, j)).filter (fun c => c.2 = k) =
      if j = k then (s.calls.filter fun c => c.2 = k).erase (i, k)
      else s.calls.filter fun c => c.2 = k := by
    intro i
    rw [← List.erase_filter]
    split
    · next hjk => rw [hjk]
    · next hjk => exact List.erase_of_not_mem (by simp [hjk])
  cases a with
  | push i now =>
    simp only [callsAfter]
    split
    · exact herase i
    · exact (ite_self _).symm
  | _ => exact (ite_self _).symm

theorem Purged.drop (h : Purged k s s') (hs : step s a = some t) (ha : a.concerns k = false) :
    Purged k t s' := by
  cases (step_cases hs).2 with
  | @post i name function ms j u _ hj =>
    have hjk : k ≠ j := by
      rintro rfl
      exact absurd (val_of_getTaskThread hj).symm (of_decide_eq_false ha)
    refine ⟨h.isRun, h.crashed, ?_, h.others, h.entry, ?_, h.clearing⟩
    · dsimp only
      rw [Function.update_of_ne hjk, h.thread]
    · rw [h.calls, List.filter_cons_of_neg (by simpa using hjk.symm)]
  | crash => exact ⟨h.isRun, fun _ => rfl, h.thread, h.others, h.entry, h.calls, h.clearing⟩
  | ignore => exact h
  | @thread j a u =>
    have hjk : j ≠ k := of_decide_eq_false ha
    refine ⟨h.isRun, h.crashed, ?_, h.others, h.entry, ?_, h.clearing⟩
    · dsimp only
      rw [Function.update_of_ne hjk.symm, h.thread]
    · rw [filter_callsAfter, if_neg hjk, h.calls]
  | @keep j =>
    have hjk : j ≠ k := of_decide_eq_false ha
    refine ⟨h.isRun, h.crashed, h.thread, h.others, ?_, h.calls, h.clearing⟩
    rw [h.entry, Finset.mem_erase, and_iff_right hjk.symm]
  | @destroy j u =>
    have hjk : j ≠ k := of_decide_eq_false ha
    refine ⟨h.isRun, h.crashed, ?_, h.others, ?_, h.calls, h.clearing⟩
    · dsimp only
      rw [Function.update_of_ne hjk.symm, h.thread]
    · rw [h.entry, Finset.mem_erase, and_iff_right hjk.symm]

theorem step_eq (hs : ¬ s.ended) : step s a = s.act a := if_neg hs

theorem Purged.keep (h : Purged k s s') (hs : step s a = some t) (ha : a.concerns k = true) :
    ∃ t', step s' a = some t' ∧ Purged k t t' := by
  obtain ⟨hended, hsteps⟩ := step_cases hs
  have hothers : ∀ {u : Thread F} j, j ≠ k → Function.update s'.threads k u j = .init := by
    intro u j hj
    rw [Function.update_of_ne hj, h.others j hj]
  have hself : ∀ u : Thread F,
      Function.update s'.threads k u k = Function.update s.threads k u k := by
    intro u
    rw [Function.update_self, Function.update_self]
  rw [step_eq (h.not_ended hended)]
  cases hsteps with
  | @post i name function ms j u hrun hj hi ht =>
    have hk : name.index = k.val := of_decide_eq_true ha
    -- the post names `k`, so it goes to the same thread in both runs
    obtain rfl : j = k := Fin.ext ((val_of_getTaskThread hj).trans hk)
    have hi' : s'.unused i := by
      intro j'
      by_cases hj' : j' = j
      · rw [hj', h.thread, hi j]
      · rw [h.others j' hj']
        rfl
    rw [act, Manager.post, if_pos (h.isRun.trans hrun), h.getTaskThread hk,
      ← getTaskThread_of_index hk, hj]
    dsimp only
    rw [if_pos hi', h.thread, ht]
    refine ⟨_, rfl, h.isRun, h.crashed, hself u, hothers, h.entry, ?_, h.clearing⟩
    rw [List.filter_cons_of_pos (by simp), h.calls]
  | @crash i name function ms hrun hnone =>
    have hk : name.index = k.val := of_decide_eq_true ha
    rw [act, Manager.post, if_pos (h.isRun.trans hrun), h.getTaskThread hk,
      ← getTaskThread_of_index hk, hnone]
    exact ⟨_, rfl, h.isRun, fun _ => rfl, h.thread, h.others, h.entry, h.calls, h.clearing⟩
  | ignore hrun =>
    rw [act, Manager.post, if_neg (by rw [h.isRun, hrun]; simp)]
    exact ⟨_, rfl, h⟩
  | @thread j a u hallow ht =>
    obtain rfl : j = k := of_decide_eq_true ha
    rw [act, threadStep, if_pos ((h.allows a).trans hallow), h.thread, ht]
    refine ⟨_, rfl, h.isRun, h.crashed, hself u, hothers, h.entry, ?_, h.clearing⟩
    rw [filter_callsAfter, if_pos rfl, ← h.calls]
    rfl
  | @keep j hj _ hp =>
    obtain rfl : j = k := of_decide_eq_true ha
    have hj' := h.entry.mpr hj
    -- in the run without the others no destructor is waited for
    rw [act, Manager.erase, if_pos ⟨hj', by rw [cleared, h.clearing hj']⟩,
      if_pos (h.pushing.trans hp)]
    refine ⟨_, rfl, h.isRun, h.crashed, h.thread, h.others, ?_, h.calls, fun _ => rfl⟩
    simp
  | @destroy j u hj _ hp ht =>
    obtain rfl : j = k := of_decide_eq_true ha
    have hj' := h.entry.mpr hj
    rw [act, Manager.erase, if_pos ⟨hj', by rw [cleared, h.clearing hj']⟩,
      if_neg (by rw [h.pushing, hp]; simp), h.thread, ht]
    refine ⟨_, rfl, h.isRun, h.crashed, hself u, hothers, ?_, h.calls, ?_⟩
    · simp
    · simp

end Purged

/-- What the other threads do, and whether they are there at all, makes no difference to a thread:
without all that concerns only them the run is still one, and leaves the thread the same. -/
theorem undisturbed {acts : List (Action F)} {s : Manager F} (hrun : step.run init acts = some s)
    (k : Key) : ∃ s', step.run init (acts.filter (Action.concerns k)) = some s' ∧
      s'.threads k = s.threads k := by
  obtain ⟨s', hs', h⟩ := Machine.run_filter (m := step) (R := Purged k) (p := Action.concerns k)
    (fun s s' a t h hs ha => h.keep hs ha) (fun s s' a t h hs ha => h.drop hs ha)
    ⟨rfl, id, rfl, fun _ _ => rfl, Iff.rfl, rfl, fun _ => rfl⟩ hrun
  exact ⟨s', hs', h.thread⟩

/-- Without the step of `FHT_MAIN` the thread `IO` is the same. -/
theorem undisturbed_postToIo : ∃ s s' : Manager Unit, step.run init postToIo = some s ∧
    step.run init (postToIo.filter (Action.concerns ioKey)) = some s' ∧
      s'.threads ioKey = s.threads ioKey := by
  obtain ⟨s', hs', h⟩ := undisturbed (rfl : step.run init postToIo = some _) ioKey
  exact ⟨_, s', rfl, hs', h⟩

end Manager

end FHT.Task
