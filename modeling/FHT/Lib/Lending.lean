import Mathlib.Logic.Function.Basic
import Mathlib.Data.List.Nodup
import Mathlib.Data.List.Perm.Subperm

/-!
# Items that are lent and given back

A stock of items, each free or lent to one holder. An item is taken from the front of the free
ones and comes back at their end.

## Main definitions

- `Lending` — the free items and what each holder has
- `Lending.Kept` — every item of the stock is in one place

## Main results

- `Kept.add`, `Kept.take`, `Kept.giveBack` — the operations keep the stock
- `Kept.perm` — where nothing is lent all of the stock is free
-/

structure Lending (ι α : Type*) where
  free : List α
  lent : ι → Option α

namespace Lending

variable {ι α : Type*}

/-- Every item of the stock is free, once, or lent, to one holder; there are no others. -/
structure Kept (stock : List α) (l : Lending ι α) : Prop where
  nodup : l.free.Nodup
  stock : ∀ a, a ∈ stock ↔ a ∈ l.free ∨ ∃ i, l.lent i = some a
  apart : ∀ i a, l.lent i = some a → a ∉ l.free
  alone : ∀ i j a, l.lent i = some a → l.lent j = some a → i = j

theorem kept_empty : Kept [] (⟨[], fun _ => none⟩ : Lending ι α) where
  nodup := List.nodup_nil
  stock a := by simp
  apart i a h := by cases h
  alone i j a h := by cases h

variable [DecidableEq ι] {stock : List α} {l : Lending ι α}

/-- A new item is put in. -/
def add (l : Lending ι α) (a : α) : Lending ι α := { l with free := l.free ++ [a] }

/-- The holder takes the item `a`, with `rest` what is free then. -/
def take (l : Lending ι α) (i : ι) (a : α) (rest : List α) : Lending ι α :=
  ⟨rest, Function.update l.lent i (some a)⟩

def giveBack (l : Lending ι α) (i : ι) (a : α) : Lending ι α :=
  ⟨l.free ++ [a], Function.update l.lent i none⟩

theorem take_lent (i : ι) (a : α) (rest : List α) (j : ι) :
    (l.take i a rest).lent j = if j = i then some a else l.lent j := Function.update_apply ..

theorem giveBack_lent (i : ι) (a : α) (j : ι) :
    (l.giveBack i a).lent j = if j = i then none else l.lent j := Function.update_apply ..

omit [DecidableEq ι] in
theorem Kept.add (h : l.Kept stock) {a : α} (ha : a ∉ stock) :
    (l.add a).Kept (stock ++ [a]) where
  nodup := by
    refine List.nodup_append.mpr ⟨h.nodup, List.nodup_singleton a, ?_⟩
    rintro b hb _ hc rfl
    obtain rfl := List.mem_singleton.mp hc
    exact ha ((h.stock b).mpr (.inl hb))
  stock b := by
    show _ ↔ b ∈ l.free ++ [a] ∨ ∃ i, l.lent i = some b
    rw [List.mem_append, h.stock, List.mem_append]
    tauto
  apart i b hb := by
    have hstock : b ∈ stock := (h.stock b).mpr (.inr ⟨i, hb⟩)
    have hne : b ≠ a := fun heq => ha (heq ▸ hstock)
    simpa [Lending.add, hne] using h.apart i b hb
  alone := h.alone

theorem Kept.take (h : l.Kept stock) {i : ι} {a : α} {rest : List α} (hfree : l.free = a :: rest)
    (hi : l.lent i = none) : (l.take i a rest).Kept stock where
  nodup := (List.nodup_cons.mp (hfree ▸ h.nodup)).2
  stock b := by
    rw [h.stock, hfree, List.mem_cons]
    simp only [take_lent]
    constructor
    · rintro ((rfl | hb) | ⟨j, hj⟩)
      · exact .inr ⟨i, if_pos rfl⟩
      · exact .inl hb
      · have hji : j ≠ i := by
          rintro rfl
          rw [hi] at hj
          cases hj
        exact .inr ⟨j, by rw [if_neg hji, hj]⟩
    · rintro (hb | ⟨j, hj⟩)
      · exact .inl (.inr hb)
      · split at hj
        · exact .inl (.inl (Option.some.inj hj).symm)
        · exact .inr ⟨j, hj⟩
  apart j b hj := by
    have hnodup := List.nodup_cons.mp (hfree ▸ h.nodup)
    rw [take_lent] at hj
    split at hj
    · obtain rfl := Option.some.inj hj
      exact hnodup.1
    · have hb := h.apart j b hj
      rw [hfree] at hb
      exact fun hmem => hb (List.mem_cons_of_mem a hmem)
  alone j k b hj hk := by
    -- nobody had the item that is taken
    have hother : ∀ m, l.lent m ≠ some a := by
      intro m hm
      exact h.apart m a hm (hfree ▸ List.mem_cons_self)
    rw [take_lent] at hj hk
    split at hj <;> split at hk
    · next hji hki => rw [hji, hki]
    · obtain rfl := Option.some.inj hj
      exact absurd hk (hother k)
    · obtain rfl := Option.some.inj hk
      exact absurd hj (hother j)
    · exact h.alone j k b hj hk

theorem Kept.giveBack (h : l.Kept stock) {i : ι} {a : α} (hi : l.lent i = some a) :
    (l.giveBack i a).Kept stock where
  nodup := by
    refine List.nodup_append.mpr ⟨h.nodup, List.nodup_singleton a, ?_⟩
    rintro b hb _ hc rfl
    obtain rfl := List.mem_singleton.mp hc
    exact h.apart i b hi hb
  stock b := by
    show _ ↔ b ∈ l.free ++ [a] ∨ ∃ j, (l.giveBack i a).lent j = some b
    rw [h.stock, List.mem_append, List.mem_singleton]
    simp only [giveBack_lent]
    constructor
    · rintro (hb | ⟨j, hj⟩)
      · exact .inl (.inl hb)
      · by_cases hji : j = i
        · subst hji
          exact .inl (.inr (Option.some.inj (hj.symm.trans hi)))
        · exact .inr ⟨j, by rw [if_neg hji, hj]⟩
    · rintro ((hb | rfl) | ⟨j, hj⟩)
      · exact .inl hb
      · exact .inr ⟨i, hi⟩
      · split at hj
        · cases hj
        · exact .inr ⟨j, hj⟩
  apart j b hj := by
    rw [giveBack_lent] at hj
    split at hj
    · cases hj
    · next hji =>
      have hne : b ≠ a := fun heq => hji (h.alone j i a (heq ▸ hj) hi)
      simpa [Lending.giveBack, hne] using h.apart j b hj
  alone j k b hj hk := by
    rw [giveBack_lent] at hj hk
    split at hj
    · cases hj
    · split at hk
      · cases hk
      · exact h.alone j k b hj hk

omit [DecidableEq ι] in
theorem Kept.perm (h : l.Kept stock) (hstock : stock.Nodup) (hnone : ∀ i, l.lent i = none) :
    l.free.Perm stock := by
  refine (List.perm_ext_iff_of_nodup h.nodup hstock).mpr fun a => ?_
  rw [h.stock]
  simp [hnone]

end Lending
