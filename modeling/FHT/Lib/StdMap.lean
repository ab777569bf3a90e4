import Mathlib.Data.List.Basic
import Std.Data.ExtTreeMap.Lemmas

/-!
# `std::map` with `emplace`, `erase` and `find`

An ordered map is the extensional tree map of the core library. `emplace` keeps the value
that is already there, so that a sequence of insertions keeps the first value of each key.
-/

/-- A `std::map<K, V>`. -/
abbrev StdMap (K V : Type*) [Ord K] := Std.ExtTreeMap K V compare

namespace StdMap

variable {K V : Type*} [Ord K] [Std.TransOrd K]

/-- `map.emplace(k, v)`: no effect where the key is present. -/
def emplace (m : StdMap K V) (k : K) (v : V) : StdMap K V := m.insertIfNew k v

/-- One `emplace` for each pair, from left to right. -/
def emplaceAll (m : StdMap K V) (l : List (K × V)) : StdMap K V :=
  l.foldl (fun m p => m.emplace p.1 p.2) m

@[simp] theorem emplaceAll_nil (m : StdMap K V) : m.emplaceAll [] = m := rfl

@[simp] theorem emplaceAll_cons (m : StdMap K V) (p : K × V) (l : List (K × V)) :
    m.emplaceAll (p :: l) = (m.emplace p.1 p.2).emplaceAll l := rfl

theorem mem_iff_getElem?_ne_none (m : StdMap K V) (k : K) : k ∈ m ↔ m[k]? ≠ none := by
  rw [Std.ExtTreeMap.mem_iff_isSome_getElem?, Option.isSome_iff_ne_none]

variable [Std.LawfulEqOrd K] [DecidableEq K]

theorem getElem?_emplace (m : StdMap K V) (k a : K) (v : V) :
    (m.emplace k v)[a]? = if a = k then some (m[k]?.getD v) else m[a]? := by
  rw [emplace, Std.ExtTreeMap.getElem?_insertIfNew]
  by_cases hk : a = k
  · subst hk
    by_cases hm : a ∈ m
    · simp [hm]
    · simp [hm]
  · have hk' : k ≠ a := Ne.symm hk
    simp [hk, hk']

theorem getElem?_insert (m : StdMap K V) (k a : K) (v : V) :
    (m.insert k v)[a]? = if a = k then some v else m[a]? := by
  rw [Std.ExtTreeMap.getElem?_insert]
  by_cases hk : a = k
  · simp [hk]
  · have hk' : k ≠ a := Ne.symm hk
    simp [hk, hk']

theorem getElem?_erase (m : StdMap K V) (k a : K) :
    (m.erase k)[a]? = if a = k then none else m[a]? := by
  rw [Std.ExtTreeMap.getElem?_erase]
  by_cases hk : a = k
  · simp [hk]
  · have hk' : k ≠ a := Ne.symm hk
    simp [hk, hk']

/-- `emplace` changes nothing exactly where the key is present. -/
theorem emplace_eq_self_iff (m : StdMap K V) (k : K) (v : V) : m.emplace k v = m ↔ k ∈ m := by
  rw [mem_iff_getElem?_ne_none]
  constructor
  · intro h hk
    have := congrArg (fun t : StdMap K V => t[k]?) h
    simp [getElem?_emplace, hk] at this
  · intro hk
    apply Std.ExtTreeMap.ext_getElem?
    intro a
    obtain ⟨w, hw⟩ := Option.ne_none_iff_exists'.mp hk
    rw [getElem?_emplace]
    by_cases ha : a = k
    · subst ha; simp [hw]
    · simp [ha]

/-- `erase` changes nothing exactly where the key is absent. -/
theorem erase_eq_self_iff (m : StdMap K V) (k : K) : m.erase k = m ↔ k ∉ m := by
  rw [mem_iff_getElem?_ne_none, not_not]
  constructor
  · intro h
    rw [← h, getElem?_erase, if_pos rfl]
  · intro hk
    apply Std.ExtTreeMap.ext_getElem?
    intro a
    rw [getElem?_erase]
    by_cases ha : a = k
    · subst ha; simp [hk]
    · simp [ha]

/-- A key is bound to what the map held before, else to its first value in the list. -/
theorem getElem?_emplaceAll [BEq K] [LawfulBEq K] (m : StdMap K V) (l : List (K × V)) (a : K) :
    (m.emplaceAll l)[a]? = m[a]?.or (l.lookup a) := by
  induction l generalizing m with
  | nil => simp
  | cons p l ih =>
    rw [emplaceAll_cons, ih, getElem?_emplace, List.lookup_cons]
    by_cases ha : a = p.1
    · subst ha
      cases hm : m[p.1]? <;> simp
    · have hb : (a == p.1) = false := by simpa using ha
      simp [ha, hb]

/-- What the map held before the insertions is invisible afterwards exactly when the list
binds it the same way. -/
theorem emplaceAll_eq_emplaceAll_empty_iff [BEq K] [LawfulBEq K] (m : StdMap K V)
    (l : List (K × V)) :
    m.emplaceAll l = emplaceAll ∅ l ↔ ∀ k v, m[k]? = some v → l.lookup k = some v := by
  constructor
  · intro h k v hk
    have := congrArg (fun t : StdMap K V => t[k]?) h
    simpa [getElem?_emplaceAll, hk] using this.symm
  · intro h
    apply Std.ExtTreeMap.ext_getElem?
    intro k
    rw [getElem?_emplaceAll, getElem?_emplaceAll]
    cases hk : m[k]? with
    | none => simp
    | some v => simp [h k v hk]

end StdMap
