import Mathlib.Data.List.Basic

/-!
# A queue that is served in rounds

A round serves the items that were waiting when it started. Whoever arrives, or comes back,
waits behind for the next round. A round that is broken off leaves its rest at the front.

## Main definitions

- `Line` — the items of the current round and those behind them
- `Line.Ordered` — no item of a round, or behind it, has been overtaken
- `Line.Crossed` — the one is still served in this round, the other only in the next

## Main results

For each operation, when it keeps two items in their order.
-/

/-- `x` stands before `y`. -/
def Before {α : Type*} (x y : α) (l : List α) : Prop := [x, y].Sublist l

section Before

variable {α : Type*} {x y : α}

theorem not_before_nil : ¬ Before x y [] := by
  intro h
  cases h

theorem Before.cons {l : List α} (h : Before x y l) (z : α) : Before x y (z :: l) :=
  List.Sublist.cons z h

theorem before_cons_of_mem {l : List α} (h : y ∈ l) : Before x y (x :: l) :=
  List.cons_sublist_cons.mpr (List.singleton_sublist.mpr h)

theorem before_append {l r : List α} :
    Before x y (l ++ r) ↔ Before x y l ∨ Before x y r ∨ x ∈ l ∧ y ∈ r := by
  constructor
  · intro h
    obtain ⟨l₁, l₂, heq, hl, hr⟩ := List.sublist_append_iff.mp h
    -- the pair is cut before `x`, between the two, or after `y`
    match l₁, heq with
    | [], heq =>
      obtain rfl : l₂ = [x, y] := heq.symm
      exact .inr (.inl hr)
    | [z], heq =>
      obtain ⟨rfl, rfl⟩ : x = z ∧ [y] = l₂ := by simpa using heq
      exact .inr (.inr ⟨List.singleton_sublist.mp hl, List.singleton_sublist.mp hr⟩)
    | z :: w :: rest, heq =>
      obtain ⟨rfl, rfl, hrest⟩ : x = z ∧ y = w ∧ [] = rest ++ l₂ := by simpa using heq
      obtain ⟨rfl, rfl⟩ := List.append_eq_nil_iff.mp hrest.symm
      exact .inl hl
  · rintro (h | h | ⟨hx, hy⟩)
    · exact h.trans (List.sublist_append_left l r)
    · exact h.trans (List.sublist_append_right l r)
    · exact List.Sublist.append (List.singleton_sublist.mpr hx) (List.singleton_sublist.mpr hy)

theorem before_concat {l : List α} {z : α} :
    Before x y (l ++ [z]) ↔ Before x y l ∨ x ∈ l ∧ y = z := by
  rw [before_append]
  have hone : ¬ Before x y [z] := fun h => by simpa using h.length_le
  simp [hone]

theorem Before.mem {l : List α} (h : Before x y l) : x ∈ l ∧ y ∈ l :=
  ⟨h.subset (by simp), h.subset (by simp)⟩

end Before

/-- The items that the current round has still to serve, and those that wait behind them. -/
structure Line (α : Type*) where
  ahead : List α
  behind : List α

namespace Line

variable {α : Type*}

/-- An item arrives, or comes back. -/
def join (l : Line α) (z : α) : Line α := { l with behind := l.behind ++ [z] }

/-- A round starts with all that wait. -/
def start (l : Line α) : Line α := ⟨l.ahead ++ l.behind, []⟩

/-- The round is over, with its rest at the front of the next. -/
def stop (l : Line α) : Line α := ⟨[], l.ahead ++ l.behind⟩

/-- The first of the round is taken. -/
def take (l : Line α) : Line α := { l with ahead := l.ahead.tail }

/-- All items, in the order in which they are served if nobody comes back. -/
def all (l : Line α) : List α := l.ahead ++ l.behind

/-- `x` has not been overtaken by `y`, neither in the round nor behind it. -/
def Ordered (x y : α) (l : Line α) : Prop := ¬ Before y x l.ahead ∧ ¬ Before y x l.behind

/-- `y` is served in the round, and `x` waits for the next. -/
def Crossed (x y : α) (l : Line α) : Prop := y ∈ l.ahead ∧ x ∈ l.behind

variable {x y : α} {l : Line α}

@[simp] theorem all_join (l : Line α) (z : α) : (l.join z).all = l.all ++ [z] :=
  (List.append_assoc ..).symm

@[simp] theorem all_start (l : Line α) : l.start.all = l.all := List.append_nil _

@[simp] theorem all_stop (l : Line α) : l.stop.all = l.all := rfl

theorem all_of_head (h : l.ahead.head? = some x) : l.all = x :: l.take.all := by
  obtain ⟨rest, hrest⟩ := List.head?_eq_some_iff.mp h
  simp [all, take, hrest]

theorem ordered_of_not_mem (ha : y ∉ l.ahead) (hb : y ∉ l.behind) : l.Ordered x y :=
  ⟨fun h => ha h.mem.1, fun h => hb h.mem.1⟩

/-- Only `x` itself loses its place by joining, to a `y` that waits already. -/
theorem ordered_join (h : l.Ordered x y) (z : α) :
    (l.join z).Ordered x y ↔ (x = z → y ∉ l.behind) := by
  show ¬ Before y x l.ahead ∧ ¬ Before y x (l.behind ++ [z]) ↔ _
  rw [before_concat]
  have ha := h.1
  have hb := h.2
  tauto

theorem crossed_join (z : α) :
    (l.join z).Crossed x y ↔ l.Crossed x y ∨ y ∈ l.ahead ∧ x = z := by
  simp [Crossed, join, and_or_left]

theorem ordered_append (h : l.Ordered x y) :
    ¬ Before y x (l.ahead ++ l.behind) ↔ ¬ l.Crossed x y := by
  rw [before_append]
  have ha := h.1
  have hb := h.2
  unfold Crossed
  tauto

theorem Ordered.start (h : l.Ordered x y) (hc : ¬ l.Crossed x y) : l.start.Ordered x y :=
  ⟨(ordered_append h).mpr hc, not_before_nil⟩

/-- A round that is broken off keeps the order unless the two were crossed. -/
theorem ordered_stop (h : l.Ordered x y) : l.stop.Ordered x y ↔ ¬ l.Crossed x y :=
  Iff.trans (and_iff_right not_before_nil) (ordered_append h)

theorem not_crossed_start : ¬ l.start.Crossed x y := by
  rintro ⟨-, h⟩
  cases h

theorem not_crossed_stop : ¬ l.stop.Crossed x y := by
  rintro ⟨h, -⟩
  cases h

theorem Ordered.take (h : l.Ordered x y) : l.take.Ordered x y :=
  ⟨fun hb => h.1 (hb.trans (List.tail_sublist _)), h.2⟩

theorem Crossed.of_take (h : l.take.Crossed x y) : l.Crossed x y :=
  ⟨List.mem_of_mem_tail h.1, h.2⟩

/-- Whoever is taken first has nobody to overtake in the round. -/
theorem Ordered.not_mem_tail (h : l.Ordered x y) (hy : l.ahead.head? = some y) :
    x ∉ l.ahead.tail := by
  intro hx
  obtain ⟨rest, hrest⟩ := List.head?_eq_some_iff.mp hy
  rw [hrest, List.tail_cons] at hx
  exact h.1 (hrest ▸ before_cons_of_mem hx)

end Line
