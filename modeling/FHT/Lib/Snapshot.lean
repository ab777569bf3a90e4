import Mathlib.Data.List.Basic
import FHT.Lib.Machine

/-!
# A working value and its published copy

Updates change a working value, and readers see a copy that is published from time to time: a
publish compares the two, copies the working value if they differ, and then swaps the copy in.
The updates and the publishes run one after the other; readers come in at any moment.

## Main definitions

- `Snapshot` — the two values, with the updates executed so far
- `Snapshot.execute`, `compare`, `swap`

## Main results

- `Consistent` — the published value is that of some of the first updates; every operation
  keeps it and shows no fewer of them than before
-/

/-- `publishing` is what the publish under way has copied, if one is: nothing where the values
did not differ. `executed` are all updates so far, and `shown` is how many of them the
published value shows. -/
structure Snapshot (M A : Type*) where
  working : M
  published : M
  publishing : Option (Option M)
  executed : List A
  shown : Nat

namespace Snapshot

variable {M A : Type*} (apply : A → M → M)

/-- Both values are the given one. -/
def init (m : M) : Snapshot M A := ⟨m, m, none, [], 0⟩

def execute (s : Snapshot M A) (a : A) : Snapshot M A :=
  { s with working := apply a s.working, executed := s.executed ++ [a] }

def compare [DecidableEq M] (s : Snapshot M A) : Snapshot M A :=
  { s with publishing := some (if s.published ≠ s.working then some s.working else none) }

/-- The copy is swapped in, if there is one. -/
def swap (s : Snapshot M A) : Snapshot M A :=
  match s.publishing with
  | none => s
  | some new =>
    { s with
      published := new.getD s.published
      publishing := none
      shown := s.executed.length }

/-- The value after the updates, in their order. -/
def after (m : M) (as : List A) : M := as.foldl (fun m a => apply a m) m

theorem after_append (m : M) (as : List A) (a : A) :
    after apply m (as ++ [a]) = apply a (after apply m as) := by
  simp [after]

/-- The working value shows all updates, the published one the first `shown` of them, and a
publish under way will show what the working value is now. -/
structure Consistent (m : M) (s : Snapshot M A) : Prop where
  working : s.working = after apply m s.executed
  published : s.published = after apply m (s.executed.take s.shown)
  shown : s.shown ≤ s.executed.length
  publishing : ∀ new, s.publishing = some new → new.getD s.published = s.working

/-- `t` comes after `s`: no update is taken back, and no fewer are shown. -/
structure Follows (s t : Snapshot M A) : Prop where
  executed : s.executed <+: t.executed
  shown : s.shown ≤ t.shown

theorem Follows.refl (s : Snapshot M A) : s.Follows s := ⟨List.prefix_refl _, Nat.le_refl _⟩

theorem Follows.trans {s t u : Snapshot M A} (h : s.Follows t) (h' : t.Follows u) :
    s.Follows u := ⟨h.executed.trans h'.executed, Nat.le_trans h.shown h'.shown⟩

theorem Follows.take_shown {s t : Snapshot M A} (h : s.Follows t)
    (hs : s.shown ≤ s.executed.length) :
    s.executed.take s.shown <+: t.executed.take t.shown := by
  obtain ⟨rest, hrest⟩ := h.executed
  have htake : s.executed.take s.shown = t.executed.take s.shown := by
    rw [← hrest, List.take_append_of_le_length hs]
  rw [htake]
  exact List.take_prefix_take_left h.shown

variable {apply}

theorem consistent_init (m : M) : Consistent apply m (init m : Snapshot M A) :=
  ⟨rfl, rfl, Nat.le_refl _, fun _ h => by cases h⟩

theorem Consistent.execute {m : M} {s : Snapshot M A} (h : Consistent apply m s)
    (hfree : s.publishing = none) (a : A) : Consistent apply m (s.execute apply a) where
  working := by rw [Snapshot.execute, after_append, ← h.working]
  published := by
    rw [Snapshot.execute, List.take_append_of_le_length h.shown]
    exact h.published
  shown := Nat.le_trans h.shown (by simp [Snapshot.execute])
  publishing new hnew := by
    rw [Snapshot.execute, hfree] at hnew
    cases hnew

theorem follows_execute (s : Snapshot M A) (a : A) : s.Follows (s.execute apply a) :=
  ⟨List.prefix_append .., Nat.le_refl _⟩

theorem Consistent.compare [DecidableEq M] {m : M} {s : Snapshot M A}
    (h : Consistent apply m s) : Consistent apply m s.compare where
  working := h.working
  published := h.published
  shown := h.shown
  publishing new hnew := by
    obtain rfl := Option.some.inj hnew
    by_cases heq : s.published = s.working
    · simp [Snapshot.compare, heq]
    · simp [Snapshot.compare, heq]

theorem follows_compare [DecidableEq M] (s : Snapshot M A) : s.Follows s.compare :=
  ⟨List.prefix_refl _, Nat.le_refl _⟩

theorem Consistent.swap {m : M} {s : Snapshot M A} (h : Consistent apply m s) :
    Consistent apply m s.swap := by
  rw [Snapshot.swap]
  cases hnew : s.publishing with
  | none => exact h
  | some new =>
    refine ⟨h.working, ?_, Nat.le_refl _, fun _ h => by cases h⟩
    rw [List.take_length, ← h.working]
    exact h.publishing new hnew

theorem Consistent.follows_swap {m : M} {s : Snapshot M A} (h : Consistent apply m s) :
    s.Follows s.swap := by
  rw [Snapshot.swap]
  cases s.publishing with
  | none => exact .refl s
  | some new => exact ⟨List.prefix_refl _, h.shown⟩

/-- Nothing is swapped where no publish is under way. -/
theorem swap_of_none {s : Snapshot M A} (h : s.publishing = none) : s.swap = s := by
  rw [swap, h]

/-- After a swap the published value is the working one. -/
theorem Consistent.swap_published {m : M} {s : Snapshot M A} (h : Consistent apply m s)
    {new : Option M} (hnew : s.publishing = some new) : s.swap.published = s.swap.working := by
  rw [Snapshot.swap, hnew]
  exact h.publishing new hnew

@[simp] theorem swap_publishing (s : Snapshot M A) : s.swap.publishing = none := by
  rw [swap]
  cases h : s.publishing with
  | none => exact h
  | some new => rfl

@[simp] theorem swap_working (s : Snapshot M A) : s.swap.working = s.working := by
  rw [swap]
  cases s.publishing <;> rfl

end Snapshot
