import Mathlib.Data.List.Basic
import Mathlib.Data.List.TakeWhile

/-!
# `std::string` with `find` and `substr`

A string is the list of its characters. A position is an index or `npos`, here `none`;
`substr` throws `std::out_of_range`, here `none`, when it starts behind the end.
-/

/-- A `std::string`. -/
abbrev Str := List Char

namespace StdString

/-- `s.find(pat)`: the first position where `pat` occurs, `none` for `npos`. -/
def find (pat : Str) : Str → Option Nat
  | [] => if pat = [] then some 0 else none
  | c :: s => if pat <+: c :: s then some 0 else (find pat s).map (· + 1)

/-- `pos + n` on `size_t`, where `npos` is the largest value and wraps around. -/
def addPos : Option Nat → Nat → Option Nat
  | some p, n => some (p + n)
  | none, 0 => none
  | none, n + 1 => some n

/-- `s.substr(pos, n)`; a count of `none` is the default `npos`. -/
def substr (s : Str) (pos : Option Nat) (n : Option Nat) : Option Str :=
  match pos with
  | none => none
  | some p =>
    if p ≤ s.length then
      some (match n with
        | none => s.drop p
        | some k => (s.drop p).take k)
    else none

/-- What a function that takes a C string reads of `s.c_str()`. -/
def cStr (s : Str) : Str := s.takeWhile (· ≠ Char.ofNat 0)

theorem cStr_eq_self {s : Str} (h : Char.ofNat 0 ∉ s) : cStr s = s := by
  rw [cStr, List.takeWhile_eq_self_iff]
  intro c hc
  have hne : c ≠ Char.ofNat 0 := fun heq => h (heq ▸ hc)
  exact decide_eq_true hne

/-- `substr` does not throw when it starts inside the string or at its end. -/
theorem substr_of_le (s : Str) {p : Nat} (hp : p ≤ s.length) (n : Nat) :
    substr s (some p) (some n) = some ((s.drop p).take n) := by
  simp [substr, hp]

theorem substr_to_end (s : Str) {p : Nat} (hp : p ≤ s.length) :
    substr s (some p) none = some (s.drop p) := by
  simp [substr, hp]

theorem substr_eq_iff (p s : Str) : substr s (some 0) (some p.length) = some p ↔ p <+: s := by
  rw [substr_of_le s (Nat.zero_le _), Option.some.injEq, List.drop_zero, List.prefix_iff_eq_take]
  exact eq_comm

/-- A single character is found at its first occurrence. -/
theorem find_singleton (c : Char) (s : Str) :
    find [c] s = if c ∈ s then some (s.idxOf c) else none := by
  induction s with
  | nil => simp [find]
  | cons d s ih =>
    rw [find, ih]
    by_cases hd : c = d
    · subst hd; simp
    · have hd' : ¬ d = c := fun h => hd h.symm
      by_cases hs : c ∈ s
      · simp [hd, hs, hd']
      · simp [hd, hs]

/-- A pattern is found behind a text that its first character does not occur in. -/
theorem find_append {c : Char} {pat s t : Str} (hc : c ∉ s) :
    find (c :: pat) (s ++ (c :: pat ++ t)) = some s.length := by
  induction s with
  | nil => simp [find]
  | cons d s ih =>
    have hd : c ≠ d := List.ne_of_not_mem_cons hc
    have hs : c ∉ s := List.not_mem_of_not_mem_cons hc
    rw [List.cons_append, find, if_neg (by simp [hd]), ih hs]
    rfl

/-- What stands before the first occurrence of a character, and behind it. -/
theorem take_idxOf_append {c : Char} {s : Str} (hc : c ∉ s) (t : Str) :
    (s ++ c :: t).take ((s ++ c :: t).idxOf c) = s := by
  rw [List.idxOf_append_of_notMem hc, List.idxOf_cons_self, Nat.add_zero, List.take_left']
  rfl

theorem drop_idxOf_append {c : Char} {s : Str} (hc : c ∉ s) (t : Str) :
    (s ++ c :: t).drop ((s ++ c :: t).idxOf c) = c :: t := by
  rw [List.idxOf_append_of_notMem hc, List.idxOf_cons_self, Nat.add_zero, List.drop_left']
  rfl

end StdString
