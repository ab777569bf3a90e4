import Mathlib.Data.List.Basic
import Mathlib.Logic.Basic

/-!
# Shared ownership

Objects are kept alive by strong references, as `std::shared_ptr` counts them. A reference is
held by a root, which stands for a local or a call in progress, or by an object that has it
among its members or closures. An object without a reference is destroyed, and the references
it holds go with it.

## Main definitions

- `Ownership` — the objects alive and the strong references
- `Ownership.make`, `copy`, `reset` — what programs do with a `shared_ptr`

## Main results

- `live_reset_eq_nil` — without roots and without cycles nothing stays alive
- `SelfHeld.reset` — an object that holds itself outlives every other reference
-/

/-- A `shared_ptr` to `target`, kept by a root or by an object. -/
structure StrongRef (R O : Type*) where
  holder : R ⊕ O
  target : O
  deriving DecidableEq

/-- The objects alive and the strong references. -/
structure Ownership (R O : Type*) where
  live : List O
  refs : List (StrongRef R O)

namespace Ownership

variable {R O : Type*}

/-- `std::make_shared`, whose result `holder` keeps. -/
def make (g : Ownership R O) (holder : R ⊕ O) (o : O) : Ownership R O where
  live := o :: g.live
  refs := ⟨holder, o⟩ :: g.refs

/-- `holder` copies a `shared_ptr` to the object, or locks a `weak_ptr` to it. -/
def copy (g : Ownership R O) (holder : R ⊕ O) (o : O) : Ownership R O :=
  { g with refs := ⟨holder, o⟩ :: g.refs }

/-- References are held by objects alive, and lead to objects alive. -/
structure Sound (g : Ownership R O) : Prop where
  target : ∀ e ∈ g.refs, e.target ∈ g.live
  holder : ∀ e ∈ g.refs, ∀ o, e.holder = .inr o → o ∈ g.live

/-- Some strong reference to the object remains. -/
def Held (g : Ownership R O) (o : O) : Prop := ∃ e ∈ g.refs, e.target = o

/-- The object is alive and holds a reference to itself. -/
def SelfHeld (g : Ownership R O) (o : O) : Prop := o ∈ g.live ∧ ⟨.inr o, o⟩ ∈ g.refs

theorem SelfHeld.copy {g : Ownership R O} {o : O} (h : g.SelfHeld o) (holder : R ⊕ O) (p : O) :
    (g.copy holder p).SelfHeld o := ⟨h.1, List.mem_cons_of_mem _ h.2⟩

theorem Sound.copy {g : Ownership R O} (h : g.Sound) {holder : R ⊕ O} {o : O} (ho : o ∈ g.live)
    (hholder : ∀ p, holder = .inr p → p ∈ g.live) : (g.copy holder o).Sound where
  target := List.forall_mem_cons.mpr ⟨ho, h.target⟩
  holder := List.forall_mem_cons.mpr ⟨hholder, h.holder⟩

theorem Sound.make {g : Ownership R O} (h : g.Sound) {holder : R ⊕ O} (o : O)
    (hholder : ∀ p, holder = .inr p → p ∈ g.live) : (g.make holder o).Sound where
  target := List.forall_mem_cons.mpr
    ⟨List.mem_cons_self, fun e he => List.mem_cons_of_mem _ (h.target e he)⟩
  holder := List.forall_mem_cons.mpr
    ⟨fun p hp => List.mem_cons_of_mem _ (hholder p hp),
      fun e he p hp => List.mem_cons_of_mem _ (h.holder e he p hp)⟩

variable [DecidableEq R] [DecidableEq O]

instance (g : Ownership R O) (o : O) : Decidable (g.Held o) :=
  inferInstanceAs (Decidable (∃ e ∈ g.refs, e.target = o))

/-- The object goes, and the references it holds. -/
def destroy (g : Ownership R O) (o : O) : Ownership R O where
  live := g.live.filter (· ≠ o)
  refs := g.refs.filter (·.holder ≠ .inr o)

/-- Objects that are not held are destroyed, at most `n` of them. -/
def collect : Nat → Ownership R O → Ownership R O
  | 0, g => g
  | n + 1, g =>
    match g.live.find? (fun o => ¬ g.Held o) with
    | none => g
    | some o => collect n (g.destroy o)

def sweep (g : Ownership R O) : Ownership R O := g.collect g.live.length

/-- `holder` gives up a reference to the object. -/
def reset (g : Ownership R O) (holder : R ⊕ O) (o : O) : Ownership R O :=
  sweep { g with refs := g.refs.erase ⟨holder, o⟩ }

/-- What the destruction of an object that is not held preserves holds after a sweep. -/
theorem sweep_induction {P : Ownership R O → Prop}
    (hdestroy : ∀ g o, P g → ¬ g.Held o → P (g.destroy o)) {g : Ownership R O} (hg : P g) :
    P g.sweep := by
  have hcollect : ∀ n g, P g → P (g.collect n) := by
    intro n
    induction n with
    | zero => exact fun g hg => hg
    | succ n ih =>
      intro g hg
      rw [collect]
      cases hfind : g.live.find? (fun o => ¬ g.Held o) with
      | none => exact hg
      | some o =>
        have hnot : ¬ g.Held o := by simpa using List.find?_some hfind
        exact ih _ (hdestroy g o hg hnot)
  exact hcollect _ g hg

/-- After a sweep what is alive is held. -/
theorem held_of_mem_sweep {g : Ownership R O} {o : O} (ho : o ∈ g.sweep.live) :
    g.sweep.Held o := by
  have hcollect : ∀ n (g : Ownership R O), g.live.length ≤ n →
      ∀ o ∈ (g.collect n).live, (g.collect n).Held o := by
    intro n
    induction n with
    | zero =>
      intro g hlen o ho
      rw [collect, List.length_eq_zero_iff.mp (Nat.le_zero.mp hlen)] at ho
      cases ho
    | succ n ih =>
      intro g hlen o ho
      rw [collect] at ho ⊢
      cases hfind : g.live.find? (fun o => ¬ g.Held o) with
      | none =>
        rw [hfind] at ho
        simpa using List.find?_eq_none.mp hfind o ho
      | some p =>
        rw [hfind] at ho
        refine ih (g.destroy p) ?_ o ho
        have hp : p ∈ g.live := List.mem_of_find?_eq_some hfind
        have hlt : (g.destroy p).live.length < g.live.length :=
          List.length_filter_lt_length_iff_exists.mpr ⟨p, hp, by simp⟩
        omega
  exact hcollect _ g (Nat.le_refl _) o ho

theorem refs_sweep_sublist (g : Ownership R O) : g.sweep.refs.Sublist g.refs :=
  sweep_induction (P := fun g' => g'.refs.Sublist g.refs)
    (fun _ _ h _ => List.filter_sublist.trans h) (List.Sublist.refl _)

theorem refs_reset_sublist (g : Ownership R O) (holder : R ⊕ O) (o : O) :
    (g.reset holder o).refs.Sublist (g.refs.erase ⟨holder, o⟩) := refs_sweep_sublist _

theorem Sound.destroy {g : Ownership R O} (h : g.Sound) {o : O} (ho : ¬ g.Held o) :
    (g.destroy o).Sound where
  target e he := by
    have he := List.mem_of_mem_filter he
    refine List.mem_filter.mpr ⟨h.target e he, ?_⟩
    simpa using fun heq => ho ⟨e, he, heq⟩
  holder e he p hp := by
    obtain ⟨he, hne⟩ := List.mem_filter.mp he
    refine List.mem_filter.mpr ⟨h.holder e he p hp, ?_⟩
    rw [hp] at hne
    simpa using hne

theorem Sound.sweep {g : Ownership R O} (h : g.Sound) : g.sweep.Sound :=
  sweep_induction (fun _ _ h ho => h.destroy ho) h

theorem Sound.reset {g : Ownership R O} (h : g.Sound) (holder : R ⊕ O) (o : O) :
    (g.reset holder o).Sound :=
  Sound.sweep ⟨fun e he => h.target e (List.mem_of_mem_erase he),
    fun e he => h.holder e (List.mem_of_mem_erase he)⟩

/-- When the last root goes and no references lead in a circle, every object is destroyed:
`rank` grows along the references. -/
theorem live_reset_eq_nil {g : Ownership R O} (hg : g.Sound) {holder : R ⊕ O} {o : O}
    (rank : O → Nat)
    (hrefs : ∀ e ∈ g.refs.erase ⟨holder, o⟩, ∃ p, e.holder = .inr p ∧ rank p < rank e.target) :
    (g.reset holder o).live = [] := by
  have hsound := hg.reset holder o
  have hnone : ∀ n, ∀ p, rank p = n → p ∉ (g.reset holder o).live := by
    intro n
    induction n using Nat.strongRecOn with
    | _ n ih =>
      rintro p rfl hp
      obtain ⟨e, he, rfl⟩ := held_of_mem_sweep hp
      obtain ⟨q, hq, hlt⟩ := hrefs e ((refs_reset_sublist g holder o).subset he)
      exact ih (rank q) hlt q rfl (hsound.holder e he q hq)
  exact List.eq_nil_iff_forall_not_mem.mpr fun p => hnone (rank p) p rfl

/-- The reference of a root stays when another one is given up. -/
theorem root_mem_reset {g : Ownership R O} {r : R} {o p : O} {holder : R ⊕ O}
    (h : ⟨.inl r, o⟩ ∈ g.refs) (hne : StrongRef.mk holder p ≠ ⟨.inl r, o⟩) :
    ⟨.inl r, o⟩ ∈ (g.reset holder p).refs :=
  sweep_induction (P := fun g => ⟨.inl r, o⟩ ∈ g.refs)
    (fun _ _ h _ => List.mem_filter.mpr ⟨h, by simp⟩) ((List.mem_erase_of_ne hne.symm).mpr h)

/-- It survives the loss of every other reference. -/
theorem SelfHeld.reset {g : Ownership R O} {o : O} (h : g.SelfHeld o) {holder : R ⊕ O} {p : O}
    (hne : StrongRef.mk holder p ≠ ⟨.inr o, o⟩) : (g.reset holder p).SelfHeld o := by
  refine sweep_induction (P := fun g => g.SelfHeld o) ?_
    ⟨h.1, (List.mem_erase_of_ne hne.symm).mpr h.2⟩
  rintro g' q ⟨hlive, hself⟩ hq
  have hoq : o ≠ q := by
    rintro rfl
    exact hq ⟨_, hself, rfl⟩
  exact ⟨List.mem_filter.mpr ⟨hlive, by simpa using hoq⟩,
    List.mem_filter.mpr ⟨hself, by simpa using hoq⟩⟩

end Ownership
