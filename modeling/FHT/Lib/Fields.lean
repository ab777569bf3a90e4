import FHT.Lib.StdString

/-!
# Header fields and their names

The fields of a message are the list of their names and values. Names are compared without
regard to case, and keep the spelling that they were set with. To set a field removes every
other field of its name.

## Main results

- `lookup_setAll_of_mem` — of names that differ pairwise, each has the value it was set to
- `lookup_setAll_of_forall_not` — setting fields leaves every other name alone
-/

/-- Equality of field names. -/
def iequals (m n : Str) : Prop := m.map Char.toLower = n.map Char.toLower

instance (m n : Str) : Decidable (iequals m n) := inferInstanceAs (Decidable (_ = _))

theorem iequals_refl (n : Str) : iequals n n := rfl

theorem iequals_symm {m n : Str} (h : iequals m n) : iequals n m := Eq.symm h

/-- The fields of a message, in their order. -/
abbrev Fields := List (Str × Str)

namespace Fields

def set (l : Fields) (name value : Str) : Fields :=
  l.filter (fun p => ¬ iequals p.1 name) ++ [(name, value)]

/-- One `set` for each pair, from left to right. -/
def setAll (l : Fields) (pairs : List (Str × Str)) : Fields :=
  pairs.foldl (fun l p => l.set p.1 p.2) l

/-- What is filtered out by name is no longer found. -/
theorem lookup_filter (l : Fields) (keep : Str → Bool) (k : Str) :
    List.lookup k (l.filter fun p => keep p.1) = if keep k then List.lookup k l else none := by
  induction l with
  | nil => simp
  | cons p l ih =>
    rw [List.filter_cons]
    by_cases hk : k = p.1
    · subst hk
      by_cases hkeep : keep p.1 = true
      · rw [if_pos hkeep, if_pos hkeep, List.lookup_cons_self, List.lookup_cons_self]
      · rw [if_neg hkeep, if_neg hkeep, ih, if_neg hkeep]
    · have hne : (k == p.1) = false := beq_eq_false_iff_ne.mpr hk
      by_cases hkeep : keep p.1 = true
      · rw [if_pos hkeep, List.lookup_cons, List.lookup_cons, hne]
        exact ih
      · rw [if_neg hkeep, List.lookup_cons, hne]
        exact ih

theorem lookup_set (l : Fields) (name value k : Str) :
    List.lookup k (l.set name value) =
      if k = name then some value
      else if iequals k name then none else List.lookup k l := by
  rw [set, List.lookup_append, lookup_filter l (fun n => ¬ iequals n name)]
  by_cases hk : k = name
  · subst hk
    simp [iequals_refl]
  · have hne : (k == name) = false := beq_eq_false_iff_ne.mpr hk
    by_cases hi : iequals k name
    · simp [hk, hi, hne]
    · simp [hk, hi, hne]

theorem lookup_set_of_not {name k : Str} (h : ¬ iequals k name) (l : Fields) (value : Str) :
    List.lookup k (l.set name value) = List.lookup k l := by
  have hne : k ≠ name := fun heq => h (heq ▸ iequals_refl k)
  rw [lookup_set, if_neg hne, if_neg h]

theorem lookup_setAll_of_forall_not {k : Str} {pairs : List (Str × Str)}
    (h : ∀ p ∈ pairs, ¬ iequals k p.1) (l : Fields) :
    List.lookup k (l.setAll pairs) = List.lookup k l := by
  induction pairs generalizing l with
  | nil => rfl
  | cons p pairs ih =>
    obtain ⟨hp, hpairs⟩ := List.forall_mem_cons.mp h
    calc List.lookup k ((l.set p.1 p.2).setAll pairs)
        = List.lookup k (l.set p.1 p.2) := ih hpairs _
      _ = List.lookup k l := lookup_set_of_not hp l p.2

/-- No later field takes the value away again. -/
theorem lookup_setAll_of_mem {pairs : List (Str × Str)}
    (hpairs : pairs.Pairwise fun p q => ¬ iequals p.1 q.1) {p : Str × Str} (hp : p ∈ pairs)
    (l : Fields) : List.lookup p.1 (l.setAll pairs) = some p.2 := by
  induction pairs generalizing l with
  | nil => cases hp
  | cons q pairs ih =>
    obtain ⟨hq, hrest⟩ := List.pairwise_cons.mp hpairs
    rcases List.mem_cons.mp hp with rfl | hmem
    · calc List.lookup p.1 ((l.set p.1 p.2).setAll pairs)
          = List.lookup p.1 (l.set p.1 p.2) := lookup_setAll_of_forall_not hq _
        _ = some p.2 := by rw [lookup_set, if_pos rfl]
    · exact ih hrest hmem (l.set q.1 q.2)

end Fields
