import Mathlib.Logic.Function.Basic
import FHT.Hendler.Registry
import FHT.Lib.Snapshot

/-!
# The registry under concurrent clients

Here the steps are those at which another thread can come in between. A call reads the pointer
once and looks the id up in what it points at; an add or a remove may post its task later, when
another copy has been published. The loop task on `FHT_MAIN` compares and copies both tables and
then swaps the two pointers, one after the other. The posted tasks may run in any order. A get
reads a pointer and changes nothing, so what it returns is a function of the state.

## Main definitions

- `Shared` — the registry with its calls in progress
- `firstSinceErased` — the value that was registered first since the id was last erased

## Main results

- `Shared.snapshots` — what the lookups of a run see
- `Shared.run_simulated` — a run of the registry with calls in one piece is a run of this one
-/

namespace FHT

namespace Update

variable {V : Type*}

def erases (id : Str) : Update V → Bool
  | emplace _ _ => false
  | erase id' => id' = id

/-- The value that the update registers under the id. -/
def registers (id : Str) : Update V → Option V
  | emplace id' prt => if id' = id then some prt else none
  | erase _ => none

end Update

theorem Published.publish_eq {V : Type*} [DecidableEq V] (p : Published V) :
    p.publish = ⟨p.map, p.map⟩ := congrArg₂ Published.mk p.publish_map p.publish_ptr

section Tables

variable {V : Type*}

/-- The table after the updates, from an empty one. -/
def tableAfter (us : List (Update V)) : StdMap Str V := Snapshot.after Update.run ∅ us

/-- The updates since the last that erased the id. -/
def sinceErased (id : Str) (us : List (Update V)) : List (Update V) :=
  (us.reverse.takeWhile (fun u => !u.erases id)).reverse

def firstSinceErased (id : Str) (us : List (Update V)) : Option V :=
  (sinceErased id us).findSome? (Update.registers id)

theorem sinceErased_concat (id : Str) (us : List (Update V)) (u : Update V) :
    sinceErased id (us ++ [u]) = if u.erases id then [] else sinceErased id us ++ [u] := by
  rw [sinceErased, List.reverse_append, List.reverse_singleton, List.singleton_append,
    List.takeWhile_cons]
  cases u.erases id <;> simp [sinceErased]

theorem getElem?_run (t : StdMap Str V) (u : Update V) (id : Str) :
    (u.run t)[id]? = if u.erases id then none else t[id]?.or (u.registers id) := by
  cases u with
  | emplace id' prt =>
    rw [Update.run, StdMap.getElem?_emplace]
    by_cases hid : id = id'
    · subst hid
      cases t[id]? <;> simp [Update.erases, Update.registers]
    · have hid' : id' ≠ id := Ne.symm hid
      simp [hid, hid', Update.erases, Update.registers]
  | erase id' =>
    rw [Update.run, StdMap.getElem?_erase]
    by_cases hid : id = id'
    · subst hid
      simp [Update.erases]
    · have hid' : id' ≠ id := Ne.symm hid
      simp [hid, hid', Update.erases, Update.registers]

/-- A table holds under an id what was registered there first since the id was last erased. -/
theorem getElem?_tableAfter (us : List (Update V)) (id : Str) :
    (tableAfter us)[id]? = firstSinceErased id us := by
  induction us using List.reverseRecOn with
  | nil => simp [tableAfter, Snapshot.after, firstSinceErased, sinceErased]
  | append_singleton us u ih =>
    rw [tableAfter, Snapshot.after_append, getElem?_run, firstSinceErased, sinceErased_concat]
    split
    · rfl
    · have hlast : [u].findSome? (Update.registers id) = u.registers id := by
        rw [List.findSome?_cons]
        cases u.registers id <;> rfl
      rw [List.findSome?_append, hlast]
      exact congrArg (Option.or · (u.registers id)) ih

end Tables

namespace Hendler

variable {U L : Type*}

/-- The registry with its two tables, the posted updates, and for each call in progress the
update that it is about to post. -/
structure Shared (U L : Type*) where
  mapHendler : Snapshot (StdMap Str U) (Update U)
  mapList : Snapshot (StdMap Str L) (Update L)
  posted : List (Update U ⊕ Update L)
  calls : Nat → Option (Option (Update U ⊕ Update L))

/-- `begin` reads the pointer, and `post` is the rest of the call. The others are steps of
`FHT_MAIN`: it runs a posted update, and in the loop task it compares and then swaps. -/
inductive SharedAction (U L : Type*)
  | begin (i : Nat) (c : Call U L)
  | post (i : Nat)
  | runPosted (k : Nat)
  | compare
  | swapHendler
  | swapList

namespace Shared

/-- After the constructor: the maps are empty. -/
def init : Shared U L := ⟨.init ∅, .init ∅, [], fun _ => none⟩

/-- The registry as its calls see it. -/
def hendler (s : Shared U L) : Hendler U L :=
  ⟨⟨s.mapHendler.working, s.mapHendler.published⟩, ⟨s.mapList.working, s.mapList.published⟩,
    s.posted⟩

/-- The update that a call decides to post on the copy that it has read. -/
def decides (s : Shared U L) : Call U L → Option (Update U ⊕ Update L)
  | .addUniqueHendler id prt => (s.hendler.mapHendler.add id prt).map .inl
  | .removeUniqueHendler id => (s.hendler.mapHendler.remove id).map .inl
  | .addHendler id prt => (s.hendler.mapList.add id prt).map .inr
  | .removeHendler id => (s.hendler.mapList.remove id).map .inr

/-- `FHT_MAIN` is not inside the loop task. -/
def mainFree (s : Shared U L) : Bool :=
  s.mapHendler.publishing.isNone && s.mapList.publishing.isNone

/-- `FHT_MAIN` runs an update on its table. -/
def execute (s : Shared U L) : Update U ⊕ Update L → Shared U L
  | .inl u => { s with mapHendler := s.mapHendler.execute Update.run u }
  | .inr u => { s with mapList := s.mapList.execute Update.run u }

/-- Both tables are consistent. -/
def Consistent (s : Shared U L) : Prop :=
  s.mapHendler.Consistent Update.run ∅ ∧ s.mapList.Consistent Update.run ∅

/-- Both tables come after those of `s`. -/
def Follows (s t : Shared U L) : Prop :=
  s.mapHendler.Follows t.mapHendler ∧ s.mapList.Follows t.mapList

theorem Follows.refl (s : Shared U L) : s.Follows s := ⟨.refl _, .refl _⟩

theorem Follows.trans {s t u : Shared U L} (h : s.Follows t) (h' : t.Follows u) :
    s.Follows u := ⟨h.1.trans h'.1, h.2.trans h'.2⟩

theorem mainFree_iff (s : Shared U L) :
    s.mainFree ↔ s.mapHendler.publishing = none ∧ s.mapList.publishing = none := by
  simp [mainFree]

theorem Consistent.execute {s : Shared U L} (h : s.Consistent) (hfree : s.mainFree)
    (u : Update U ⊕ Update L) : (s.execute u).Consistent ∧ s.Follows (s.execute u) := by
  obtain ⟨hu, hl⟩ := (mainFree_iff s).mp hfree
  cases u with
  | inl u => exact ⟨⟨h.1.execute hu u, h.2⟩, Snapshot.follows_execute _ u, .refl _⟩
  | inr u => exact ⟨⟨h.1, h.2.execute hl u⟩, .refl _, Snapshot.follows_execute _ u⟩

theorem consistent_init : (init : Shared U L).Consistent :=
  ⟨Snapshot.consistent_init ∅, Snapshot.consistent_init ∅⟩

/-- The executed updates that the readers of `mapHendler_ptr` see. -/
def shownHendler (s : Shared U L) : List (Update U) :=
  s.mapHendler.executed.take s.mapHendler.shown

def shownList (s : Shared U L) : List (Update L) := s.mapList.executed.take s.mapList.shown

/-- The steps that end a publish tick which is under way. -/
def finishTick (s : Shared U L) : List (SharedAction U L) :=
  (if s.mapHendler.publishing.isSome then [.swapHendler] else []) ++
    (if s.mapList.publishing.isSome then [.swapList] else [])

def tick : List (SharedAction U L) := [.compare, .swapHendler, .swapList]

theorem mainFree_execute {s : Shared U L} (h : s.mainFree) (u : Update U ⊕ Update L) :
    (s.execute u).mainFree := by
  cases u <;> exact h

variable [DecidableEq U] [DecidableEq L]

def step : Machine (Shared U L) (SharedAction U L) :=
  fun s a =>
    match a with
    | .begin i c =>
      match s.calls i with
      | some _ => none
      | none => some { s with calls := Function.update s.calls i (some (s.decides c)) }
    | .post i =>
      match s.calls i with
      | none => none
      | some u => some { s with
          posted := s.posted ++ u.toList
          calls := Function.update s.calls i none }
    | .runPosted k =>
      if s.mainFree then
        s.posted[k]?.map fun u => { s.execute u with posted := s.posted.eraseIdx k }
      else none
    | .compare =>
      if s.mainFree then some { s with
        mapHendler := s.mapHendler.compare
        mapList := s.mapList.compare }
      else none
    | .swapHendler =>
      if s.mapHendler.publishing.isSome then some { s with mapHendler := s.mapHendler.swap }
      else none
    | .swapList =>
      if s.mapHendler.publishing.isNone && s.mapList.publishing.isSome then
        some { s with mapList := s.mapList.swap }
      else none

/-- What one step does to the tables. -/
theorem step_consistent {s t : Shared U L} {a : SharedAction U L} (h : s.Consistent)
    (hs : step s a = some t) : t.Consistent ∧ s.Follows t := by
  cases a with
  | begin i c =>
    simp only [step] at hs
    split at hs
    · cases hs
    · obtain rfl := Option.some.inj hs
      exact ⟨h, .refl _⟩
  | post i =>
    simp only [step] at hs
    split at hs
    · cases hs
    · obtain rfl := Option.some.inj hs
      exact ⟨h, .refl _⟩
  | runPosted k =>
    obtain ⟨hfree, hs⟩ := Option.ite_none_right_eq_some.mp hs
    obtain ⟨u, -, rfl⟩ := Option.map_eq_some_iff.mp hs
    exact h.execute hfree u
  | compare =>
    obtain ⟨-, hs⟩ := Option.ite_none_right_eq_some.mp hs
    obtain rfl := Option.some.inj hs
    exact ⟨⟨h.1.compare, h.2.compare⟩, Snapshot.follows_compare _, Snapshot.follows_compare _⟩
  | swapHendler =>
    obtain ⟨-, hs⟩ := Option.ite_none_right_eq_some.mp hs
    obtain rfl := Option.some.inj hs
    exact ⟨⟨h.1.swap, h.2⟩, h.1.follows_swap, .refl _⟩
  | swapList =>
    obtain ⟨-, hs⟩ := Option.ite_none_right_eq_some.mp hs
    obtain rfl := Option.some.inj hs
    exact ⟨⟨h.1, h.2.swap⟩, .refl _, h.2.follows_swap⟩

theorem run_consistent {s t : Shared U L} {acts : List (SharedAction U L)}
    (h : s.Consistent) (hrun : step.run s acts = some t) : t.Consistent ∧ s.Follows t := by
  refine Machine.run_invariant (I := fun t => t.Consistent ∧ s.Follows t) ?_ ⟨h, .refl s⟩ hrun
  intro u a v ⟨hu, hsu⟩ hs
  obtain ⟨hv, huv⟩ := step_consistent hu hs
  exact ⟨hv, hsu.trans huv⟩

/-- A publish tick from a state in which none is under way. -/
theorem run_tick {s : Shared U L} (h : s.Consistent) (hfree : s.mainFree) :
    ∃ t, step.run s tick = some t ∧ t.posted = s.posted ∧ t.calls = s.calls ∧ t.mainFree ∧
      t.mapHendler.working = s.mapHendler.working ∧ t.mapList.working = s.mapList.working ∧
      t.mapHendler.published = t.mapHendler.working ∧
      t.mapList.published = t.mapList.working := by
  refine ⟨{ s with mapHendler := s.mapHendler.compare.swap, mapList := s.mapList.compare.swap },
    ?_, rfl, rfl, ?_, ?_, ?_, ?_, ?_⟩
  · have hlist : s.mapList.compare.publishing.isSome := rfl
    have hhendler : s.mapHendler.compare.publishing.isSome := rfl
    simp [tick, Machine.run_cons, step, hfree, hlist, hhendler]
  · simp [mainFree]
  · exact s.mapHendler.compare.swap_working
  · exact s.mapList.compare.swap_working
  · exact h.1.compare.swap_published rfl
  · exact h.2.compare.swap_published rfl

theorem run_finishTick (s : Shared U L) :
    ∃ t, step.run s s.finishTick = some t ∧ t.posted = s.posted ∧ t.mainFree := by
  refine ⟨{ s with mapHendler := s.mapHendler.swap, mapList := s.mapList.swap }, ?_, rfl, ?_⟩
  · cases hu : s.mapHendler.publishing <;> cases hl : s.mapList.publishing <;>
      simp [finishTick, Machine.run_cons, step, hu, hl, Snapshot.swap_of_none]
  · simp [mainFree]

theorem mainFree_run_posted {s t : Shared U L} (h : s.mainFree) {ks : List Nat}
    (hrun : step.run s (ks.map .runPosted) = some t) : t.mainFree := by
  induction ks generalizing s with
  | nil =>
    obtain rfl : s = t := by simpa using hrun
    exact h
  | cons k ks ih =>
    obtain ⟨u, hu, hrun⟩ := Machine.run_cons_eq_some.mp hrun
    obtain ⟨-, hu⟩ := Option.ite_none_right_eq_some.mp hu
    obtain ⟨upd, -, rfl⟩ := Option.map_eq_some_iff.mp hu
    refine ih ?_ hrun
    exact mainFree_execute h upd

/-- From the oldest on, the posted updates can all be run. -/
theorem exists_run_posted {s : Shared U L} (h : s.mainFree) :
    ∃ (ks : List Nat) (t : Shared U L),
      step.run s (ks.map .runPosted) = some t ∧ t.posted = [] := by
  obtain ⟨us, hus⟩ : ∃ us, s.posted = us := ⟨_, rfl⟩
  induction us generalizing s with
  | nil => exact ⟨[], s, rfl, hus⟩
  | cons u us ih =>
    obtain ⟨ks, t, hrun, ht⟩ := @ih { s.execute u with posted := us }
      (mainFree_execute h u) rfl
    refine ⟨0 :: ks, t, Machine.run_cons_eq_some.mpr ⟨_, ?_, hrun⟩, ht⟩
    simp [step, h, hus]

omit [DecidableEq U] [DecidableEq L] in
theorem Consistent.getUniqueHendler {s : Shared U L} (h : s.Consistent) (id : Str) :
    s.hendler.getUniqueHendler id = (tableAfter s.shownHendler)[id]? :=
  congrArg (fun t : StdMap Str U => t[id]?) h.1.published

omit [DecidableEq U] [DecidableEq L] in
theorem Consistent.getHendler {s : Shared U L} (h : s.Consistent) (id : Str) :
    s.hendler.getHendler id = (tableAfter s.shownList)[id]? :=
  congrArg (fun t : StdMap Str L => t[id]?) h.2.published

omit [DecidableEq U] [DecidableEq L] in
theorem Follows.shown {s t : Shared U L} (hs : s.Consistent) (h : s.Follows t) :
    s.shownHendler <+: t.shownHendler ∧ s.shownList <+: t.shownList :=
  ⟨h.1.take_shown hs.1.shown, h.2.take_shown hs.2.shown⟩

/-- In every run of the registry, with any number of calls in progress: a lookup is one in the
table after some of the first executed updates, and never after fewer than an earlier lookup;
it finds what was registered first since the id was last erased; and once the pending updates
have run, in any order, a publish tick makes the published tables the working ones. -/
theorem snapshots {pre post : List (SharedAction U L)} {s t : Shared U L}
    (hs : step.run init pre = some s) (ht : step.run s post = some t) :
    (s.shownHendler <+: s.mapHendler.executed ∧ s.shownList <+: s.mapList.executed) ∧
    (s.shownHendler <+: t.shownHendler ∧ s.shownList <+: t.shownList) ∧
    (∀ id, s.hendler.getUniqueHendler id = (tableAfter s.shownHendler)[id]? ∧
      s.hendler.getHendler id = (tableAfter s.shownList)[id]?) ∧
    (∀ id, s.hendler.getUniqueHendler id = firstSinceErased id s.shownHendler ∧
      s.hendler.getHendler id = firstSinceErased id s.shownList) ∧
    (∃ (ks : List Nat) (u : Shared U L),
      step.run s (s.finishTick ++ ks.map .runPosted) = some u ∧ u.posted = []) ∧
    ∀ (ks : List Nat) (u : Shared U L),
      step.run s (s.finishTick ++ ks.map .runPosted) = some u → u.posted = [] →
      ∃ v, step.run u tick = some v ∧
        v.mapHendler.working = u.mapHendler.working ∧
        v.mapHendler.published = v.mapHendler.working ∧
        v.mapList.working = u.mapList.working ∧
        v.mapList.published = v.mapList.working := by
  have hcs := (run_consistent consistent_init hs).1
  obtain ⟨f, hf, hposted, hfree⟩ := run_finishTick s
  refine ⟨⟨List.take_prefix .., List.take_prefix ..⟩,
    (run_consistent hcs ht).2.shown hcs, ?_, ?_, ?_, ?_⟩
  · intro id
    exact ⟨hcs.getUniqueHendler id, hcs.getHendler id⟩
  · intro id
    rw [hcs.getUniqueHendler, hcs.getHendler, getElem?_tableAfter, getElem?_tableAfter]
    exact ⟨rfl, rfl⟩
  · obtain ⟨ks, u, hu, hnone⟩ := exists_run_posted hfree
    refine ⟨ks, u, ?_, hnone⟩
    rw [Machine.run_append, hf]
    exact hu
  · intro ks u hu _
    have hcu := (run_consistent hcs hu).1
    rw [Machine.run_append, hf] at hu
    obtain ⟨v, hv, -, -, -, hwu, hwl, hpu, hpl⟩ :=
      run_tick hcu (mainFree_run_posted hfree hu)
    exact ⟨v, hv, hwu, hpu, hwl, hpl⟩

/-- Two clients add one id on the same copy: both updates run, and the first registers. -/
theorem snapshots_two_adds :
    ∃ s : Shared Nat Nat,
      step.run init ([.begin 0 (.addUniqueHendler "/a".toList 1),
        .begin 1 (.addUniqueHendler "/a".toList 2), .post 0, .post 1, .runPosted 0,
        .runPosted 0] ++ tick) = some s ∧
      s.hendler.getUniqueHendler "/a".toList = firstSinceErased "/a".toList s.shownHendler ∧
      firstSinceErased "/a".toList s.shownHendler = some 1 := by
  have hs : step.run (init : Shared Nat Nat) ([.begin 0 (.addUniqueHendler "/a".toList 1),
      .begin 1 (.addUniqueHendler "/a".toList 2), .post 0, .post 1, .runPosted 0,
      .runPosted 0] ++ tick) = some _ := rfl
  obtain ⟨-, -, -, hfirst, -⟩ := snapshots hs (Machine.run_nil _)
  exact ⟨_, hs, (hfirst _).1, by decide⟩

omit [DecidableEq U] [DecidableEq L] in
/-- A call posts what it decided on the copy that it has read. -/
theorem post_decides (s : Shared U L) (c : Call U L) :
    s.hendler.post (s.decides c) = c.run s.hendler := by
  cases c <;> rfl

/-- Where no tick is under way, a step with the calls in one piece is a run of these steps. -/
theorem step_simulated {s : Shared U L} {h' : Hendler U L} {a : Action U L} {i : Nat}
    (hcons : s.Consistent) (hfree : s.mainFree) (hi : s.calls i = none)
    (hs : Hendler.step s.hendler a = some h') :
    ∃ acts s', step.run s acts = some s' ∧ s'.hendler = h' ∧ s'.mainFree ∧
      s'.calls i = none := by
  cases a with
  | call c =>
    obtain rfl := Option.some.inj hs
    refine ⟨[.begin i c, .post i], { s with
      posted := s.posted ++ (s.decides c).toList
      calls := Function.update (Function.update s.calls i (some (s.decides c))) i none },
      ?_, post_decides s c, hfree, Function.update_self ..⟩
    simp [Machine.run_cons, step, hi]
  | runPosted =>
    cases hus : s.posted with
    | nil =>
      have hnil : s.hendler.posted = [] := hus
      simp [Hendler.step, Hendler.runPosted, hnil] at hs
    | cons u rest =>
      have hcons : s.hendler.posted = u :: rest := hus
      refine ⟨[.runPosted 0], { s.execute u with posted := rest }, ?_, ?_,
        mainFree_execute hfree u, ?_⟩
      · simp [Machine.run_cons, step, hfree, hus]
      · simp only [Hendler.step, Hendler.runPosted, hcons] at hs
        obtain rfl := Option.some.inj hs
        cases u <;> rfl
      · cases u <;> exact hi
  | tick =>
    obtain rfl := Option.some.inj hs
    obtain ⟨t, ht, hp, hc, htf, hwu, hwl, hpu, hpl⟩ := run_tick hcons hfree
    refine ⟨tick, t, ht, ?_, htf, by rw [hc, hi]⟩
    show t.hendler = ⟨s.hendler.mapHendler.publish, s.hendler.mapList.publish, s.hendler.posted⟩
    rw [hendler, hpu, hpl, hwu, hwl, hp, Published.publish_eq, Published.publish_eq, hendler]

/-- Every run with the calls in one piece is a run of these steps. -/
theorem run_simulated {h : Hendler U L} {acts : List (Action U L)}
    (hrun : Hendler.step.run (Hendler.init (∅, ∅)) acts = some h) :
    ∃ acts' s, step.run init acts' = some s ∧ s.hendler = h := by
  let R (h : Hendler U L) (s : Shared U L) : Prop :=
    s.hendler = h ∧ s.Consistent ∧ s.mainFree ∧ s.calls 0 = none
  have hinit : R (Hendler.init (∅, ∅)) init := ⟨rfl, consistent_init, rfl, rfl⟩
  have hstep : ∀ h s a h', R h s → Hendler.step h a = some h' →
      ∃ acts s', step.run s acts = some s' ∧ R h' s' := by
    rintro - s a h' ⟨rfl, hcons, hfree, hcall⟩ hs
    obtain ⟨acts, s', hs', hh, hfree', hcall'⟩ := step_simulated hcons hfree hcall hs
    exact ⟨acts, s', hs', hh, (run_consistent hcons hs').1, hfree', hcall'⟩
  obtain ⟨acts', s, hs, hh, -⟩ := Machine.run_simulated hstep hinit hrun
  exact ⟨acts', s, hs, hh⟩

end Shared

end Hendler

end FHT
