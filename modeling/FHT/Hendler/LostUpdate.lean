import FHT.Hendler.Registry

/-!
# Updates that the registry keeps and loses

The abstract registry is a pair of plain maps on which every call acts at once. `pending` is
what the working maps become when the posted updates have run; it is what the abstract maps
are compared with. A call decides from the published copy whether to post anything, so it acts
on `pending` as the plain call does only where the copy is current for its id.
-/

namespace FHT

namespace Published

variable {V : Type*}

/-- An add does to a map what its update does, or nothing: the plain add exactly if no id is
turned away that the map lacks. -/
theorem add_agrees_iff (p : Published V) (t : StdMap Str V) (id : Str) (prt : V) :
    (p.add id prt).elim t (·.run t) = t.emplace id prt ↔ (id ∈ p.ptr → id ∈ t) := by
  rw [add]
  by_cases hid : id ∈ p.ptr
  · simp [hid, eq_comm (a := t), StdMap.emplace_eq_self_iff]
  · simp [hid, Update.run]

/-- The same for a remove and its answer. -/
theorem remove_agrees_iff (p : Published V) (t : StdMap Str V) (id : Str) :
    (p.remove id).elim t (·.run t) = t.erase id ∧ (p.remove id).isSome = decide (id ∈ t) ↔
      (id ∈ p.ptr ↔ id ∈ t) := by
  rw [remove]
  by_cases hid : id ∈ p.ptr
  · simp [hid, Update.run]
  · simp [hid, eq_comm (a := t), StdMap.erase_eq_self_iff]

end Published

namespace Hendler

variable {U L : Type*}

/-- The plain maps after a call: add inserts if absent, remove erases. -/
def Call.plain (t : StdMap Str U × StdMap Str L) : Call U L → StdMap Str U × StdMap Str L
  | addUniqueHendler id prt => (t.1.emplace id prt, t.2)
  | removeUniqueHendler id => (t.1.erase id, t.2)
  | addHendler id prt => (t.1, t.2.emplace id prt)
  | removeHendler id => (t.1, t.2.erase id)

/-- What a call on the plain maps returns: a remove tells whether the map held the id. -/
def Call.plainResult (t : StdMap Str U × StdMap Str L) : Call U L → Option Bool
  | addUniqueHendler _ _ | addHendler _ _ => none
  | removeUniqueHendler id => some (decide (id ∈ t.1))
  | removeHendler id => some (decide (id ∈ t.2))

/-- The client's calls of a run on the plain maps, in program order. -/
def plainMaps (t : StdMap Str U × StdMap Str L) : List (Action U L) → StdMap Str U × StdMap Str L
  | [] => t
  | .call c :: as => plainMaps (c.plain t) as
  | .runPosted :: as | .tick :: as => plainMaps t as

theorem plainMaps_append (t : StdMap Str U × StdMap Str L) (as bs : List (Action U L)) :
    plainMaps t (as ++ bs) = plainMaps (plainMaps t as) bs := by
  induction as generalizing t with
  | nil => rfl
  | cons a as ih => cases a <;> exact ih _

/-- The working maps once the posted updates have run. -/
def pending (h : Hendler U L) : StdMap Str U × StdMap Str L := h.posted.foldl runUpdate h.maps

private theorem pending_post (h : Hendler U L) (u : Option (Update U ⊕ Update L)) :
    (h.post u).pending = u.elim h.pending (runUpdate h.pending) := by
  cases u with
  | none => simp [post, pending, maps]
  | some u => simp [post, pending, maps, List.foldl_append]

theorem pending_post_inl (h : Hendler U L) (u : Option (Update U)) :
    (h.post (u.map .inl)).pending = (u.elim h.pending.1 (·.run h.pending.1), h.pending.2) := by
  rw [pending_post]
  cases u <;> rfl

theorem pending_post_inr (h : Hendler U L) (u : Option (Update L)) :
    (h.post (u.map .inr)).pending = (h.pending.1, u.elim h.pending.2 (·.run h.pending.2)) := by
  rw [pending_post]
  cases u <;> rfl

theorem pending_runPosted {h h' : Hendler U L} (hs : h.runPosted = some h') :
    h'.pending = h.pending := by
  rw [runPosted] at hs
  split at hs
  · cases hs
  · next u rest hp =>
    obtain rfl := Option.some.inj hs
    simp [pending, maps, hp]

variable [DecidableEq U] [DecidableEq L]

theorem pending_publish (h : Hendler U L) : h.publish.pending = h.pending := by
  simp [pending, publish, maps]

/-- The steps of `FHT_MAIN` that run what is posted and then publish. -/
def settleActions (h : Hendler U L) : List (Action U L) :=
  h.posted.map (fun _ => .runPosted) ++ [.tick]

/-- Once the posted updates have run and a publish tick has followed, clients read `pending`. -/
theorem run_settleActions (h : Hendler U L) :
    ∃ h', step.run h h.settleActions = some h' ∧
      h'.mapHendler.ptr = h.pending.1 ∧ h'.mapList.ptr = h.pending.2 := by
  obtain ⟨mh, ml, ps⟩ := h
  induction ps generalizing mh ml with
  | nil =>
    refine ⟨_, rfl, ?_, ?_⟩
    · exact mh.publish_ptr
    · exact ml.publish_ptr
  | cons u rest ih =>
    -- the first step runs `u`; the rest of the queue is settled from there
    obtain ⟨h', hrun, hu, hl⟩ := ih
      { mh with map := (runUpdate (mh.map, ml.map) u).1 }
      { ml with map := (runUpdate (mh.map, ml.map) u).2 }
    exact ⟨h', hrun, hu, hl⟩

/-- The copy that the call reads is current for its id: a remove finds the id exactly when the
pending updates leave it registered, an add is not turned away by an id that they erase. -/
def Call.Current (h : Hendler U L) : Call U L → Prop
  | addUniqueHendler id _ => id ∈ h.mapHendler.ptr → id ∈ h.pending.1
  | removeUniqueHendler id => id ∈ h.mapHendler.ptr ↔ id ∈ h.pending.1
  | addHendler id _ => id ∈ h.mapList.ptr → id ∈ h.pending.2
  | removeHendler id => id ∈ h.mapList.ptr ↔ id ∈ h.pending.2

omit [DecidableEq U] [DecidableEq L] in
/-- A call acts on the pending maps and answers as the plain call does exactly when the copy
it reads is current. -/
theorem Call.agrees_iff (h : Hendler U L) (c : Call U L) :
    (c.run h).pending = c.plain h.pending ∧ c.result h = c.plainResult h.pending ↔
      c.Current h := by
  cases c with
  | addUniqueHendler id prt =>
    have hadd := h.mapHendler.add_agrees_iff h.pending.1 id prt
    simpa [run, plain, result, plainResult, Current, Hendler.addUniqueHendler,
      pending_post_inl, Prod.ext_iff] using hadd
  | removeUniqueHendler id =>
    have hremove := h.mapHendler.remove_agrees_iff h.pending.1 id
    simpa [run, plain, result, plainResult, Current, Hendler.removeUniqueHendler,
      pending_post_inl, Prod.ext_iff] using hremove
  | addHendler id prt =>
    have hadd := h.mapList.add_agrees_iff h.pending.2 id prt
    simpa [run, plain, result, plainResult, Current, Hendler.addHendler,
      pending_post_inr, Prod.ext_iff] using hadd
  | removeHendler id =>
    have hremove := h.mapList.remove_agrees_iff h.pending.2 id
    simpa [run, plain, result, plainResult, Current, Hendler.removeHendler,
      pending_post_inr, Prod.ext_iff] using hremove

/-- Along a run from `t` no update is lost: at every point, once the posted updates have run
and a publish tick has followed, clients read what the calls so far make of plain maps, and
the next call returns what it returns on them. -/
def NoLostUpdate (t : StdMap Str U × StdMap Str L) (acts : List (Action U L)) : Prop :=
  ∀ pre post, acts = pre ++ post → ∀ h, step.run (init t) pre = some h →
    (∀ h', step.run h h.settleActions = some h' → ∀ id,
      h'.getUniqueHendler id = (plainMaps t pre).1[id]? ∧
      h'.getHendler id = (plainMaps t pre).2[id]?) ∧
    ∀ c rest, post = .call c :: rest → c.result h = c.plainResult (plainMaps t pre)

/-- Every client call of the run finds the published copy current for its id. -/
def CallsCurrent (t : StdMap Str U × StdMap Str L) (acts : List (Action U L)) : Prop :=
  step.Along (fun h a _ => ∀ c, a = .call c → c.Current h) (init t) acts

/-- What clients read after settling are the plain maps exactly if the pending maps are. -/
theorem settled_reads_iff (h : Hendler U L) (t : StdMap Str U × StdMap Str L) :
    (∀ h', step.run h h.settleActions = some h' → ∀ id,
      h'.getUniqueHendler id = t.1[id]? ∧ h'.getHendler id = t.2[id]?) ↔ h.pending = t := by
  obtain ⟨h', hrun, hu, hl⟩ := run_settleActions h
  constructor
  · intro hread
    have hread := hread h' hrun
    simp only [getUniqueHendler, getHendler, Published.get, hu, hl] at hread
    exact Prod.ext (Std.ExtTreeMap.ext_getElem? fun {id} => (hread id).1)
      (Std.ExtTreeMap.ext_getElem? fun {id} => (hread id).2)
  · rintro rfl h'' hrun'' id
    obtain rfl : h' = h'' := Option.some.inj (hrun.symm.trans hrun'')
    simp [getUniqueHendler, getHendler, Published.get, hu, hl]

/-- While the calls find the copy current, the pending maps are the plain maps. -/
theorem pending_eq_plainMaps {t : StdMap Str U × StdMap Str L} {acts : List (Action U L)}
    {h : Hendler U L} (hcur : CallsCurrent t acts) (hrun : step.run (init t) acts = some h) :
    h.pending = plainMaps t acts := by
  refine Machine.Along.history (I := fun as h => h.pending = plainMaps t as) ?_ rfl hcur hrun
  intro as h a h' hpend hstep hc
  rw [plainMaps_append, ← hpend]
  cases a with
  | call c =>
    obtain rfl := Option.some.inj hstep
    exact ((Call.agrees_iff h c).mpr (hc c rfl)).1
  | runPosted => exact pending_runPosted hstep
  | tick =>
    obtain rfl := Option.some.inj hstep
    exact pending_publish h

/-- No update of a run is lost exactly when each of its calls reads a copy that is current for
its id, for every order of calls, posted updates and publish ticks. -/
theorem noLostUpdate_iff_callsCurrent (t : StdMap Str U × StdMap Str L)
    (acts : List (Action U L)) : NoLostUpdate t acts ↔ CallsCurrent t acts := by
  constructor
  · intro h
    refine Machine.along_iff_forall.mpr ?_
    rintro pre a post rfl u v hu hv c rfl
    -- the pending maps are plain before and after the call, and its answer is
    obtain ⟨hread, hresult⟩ := h pre (.call c :: post) rfl u hu
    have hbefore := (settled_reads_iff u _).mp hread
    have hv' : step.run (init t) (pre ++ [.call c]) = some v :=
      Machine.run_concat_eq_some.mpr ⟨u, hu, hv⟩
    have hafter := (settled_reads_iff v _).mp (h (pre ++ [.call c]) post (by simp) v hv').1
    obtain rfl : c.run u = v := Option.some.inj hv
    rw [plainMaps_append] at hafter
    refine (Call.agrees_iff u c).mp ⟨?_, ?_⟩
    · rw [hafter, hbefore]; rfl
    · rw [hresult c post rfl, hbefore]
  · rintro h pre post rfl u hu
    -- up to any point of the run the pending maps are plain, so settling publishes these
    obtain ⟨hpre, hpost⟩ := Machine.along_append.mp h
    have hpend := pending_eq_plainMaps hpre hu
    refine ⟨(settled_reads_iff u _).mpr hpend, ?_⟩
    rintro c rest rfl
    have hcur := (hpost u hu _ rfl).1 c rfl
    rw [← hpend]
    exact ((Call.agrees_iff u c).mpr hcur).2

/-- A remove that follows its client's add before the next publish tick finds nothing: it
returns `false` and the handler stays. -/
theorem lost_remove_after_add :
    ¬ NoLostUpdate ((∅, ∅) : StdMap Str Nat × StdMap Str Nat)
      [.call (.addUniqueHendler "/a".toList 1), .call (.removeUniqueHendler "/a".toList)] := by
  intro h
  have := (h [.call (.addUniqueHendler "/a".toList 1)]
    [.call (.removeUniqueHendler "/a".toList)] rfl _ rfl).2 _ _ rfl
  revert this
  decide

end Hendler

end FHT
