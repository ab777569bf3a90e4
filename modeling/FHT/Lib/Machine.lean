import Mathlib.Data.List.Induction

/-!
# Deterministic labelled machines

A machine answers an action with its next state, or refuses the action. Whatever the
environment decides (which party moves, what a library call returned, what user code did)
is part of the action, so that a run is determined by its list of actions.

## Main definitions

- `Machine.run` — the state after a list of actions, `none` if one of them is refused
- `Machine.observe` — what is seen of the steps, in their order
- `Machine.Along` — a property of every step that a list of actions takes

The rules below are the inductions over runs: an invariant, an invariant that also sees the
actions so far or what was observed of them, a simulation, and the transfer of one step property
to another along a run.
-/

/-- One step: the next state, or `none` where the action is not enabled. -/
abbrev Machine (σ α : Type*) := σ → α → Option σ

namespace Machine

variable {σ α : Type*} {m : Machine σ α}

/-- The state after the actions `as`; `none` if one of them is refused on the way. -/
def run (m : Machine σ α) : σ → List α → Option σ
  | s, [] => some s
  | s, a :: as => (m s a).bind fun t => run m t as

@[simp] theorem run_nil (s : σ) : m.run s [] = some s := rfl

theorem run_cons (s : σ) (a : α) (as : List α) :
    m.run s (a :: as) = (m s a).bind fun t => m.run t as := rfl

theorem run_cons_eq_some {s u : σ} {a : α} {as : List α} :
    m.run s (a :: as) = some u ↔ ∃ t, m s a = some t ∧ m.run t as = some u := by
  simp [run_cons, Option.bind_eq_some_iff]

theorem run_append (s : σ) (as bs : List α) :
    m.run s (as ++ bs) = (m.run s as).bind fun t => m.run t bs := by
  induction as generalizing s with
  | nil => rfl
  | cons a as ih =>
    rw [List.cons_append, run_cons, run_cons]
    cases m s a with
    | none => rfl
    | some t => exact ih t

theorem run_concat_eq_some {s u : σ} {a : α} {as : List α} :
    m.run s (as ++ [a]) = some u ↔ ∃ t, m.run s as = some t ∧ m t a = some u := by
  simp [run_append, run_cons, Option.bind_eq_some_iff]

/-- What every step preserves holds after every run. -/
theorem run_invariant {I : σ → Prop} (hstep : ∀ s a t, I s → m s a = some t → I t)
    {s t : σ} {as : List α} (hs : I s) (hrun : m.run s as = some t) : I t := by
  induction as generalizing s with
  | nil =>
    obtain rfl : s = t := by simpa using hrun
    exact hs
  | cons a as ih =>
    obtain ⟨u, hu, hrun⟩ := run_cons_eq_some.mp hrun
    exact ih (hstep s a u hs hu) hrun

/-- Where every step is a run of another machine between related states, so is every run. -/
theorem run_simulated {τ β : Type*} {n : Machine τ β} {R : σ → τ → Prop}
    (hstep : ∀ s t a s', R s t → m s a = some s' → ∃ bs t', n.run t bs = some t' ∧ R s' t')
    {s s' : σ} {t : τ} {as : List α} (h : R s t) (hrun : m.run s as = some s') :
    ∃ bs t', n.run t bs = some t' ∧ R s' t' := by
  induction as generalizing s t with
  | nil =>
    obtain rfl : s = s' := by simpa using hrun
    exact ⟨[], t, rfl, h⟩
  | cons a as ih =>
    obtain ⟨u, hu, hrun⟩ := run_cons_eq_some.mp hrun
    obtain ⟨bs, v, hv, hR⟩ := hstep s t a u h hu
    obtain ⟨bs', t', ht', hR'⟩ := ih hR hrun
    refine ⟨bs ++ bs', t', ?_, hR'⟩
    rw [run_append, hv]
    exact ht'

/-- `P` holds of every step that the actions take from `s`. -/
def Along (m : Machine σ α) (P : σ → α → σ → Prop) : σ → List α → Prop
  | _, [] => True
  | s, a :: as => ∀ t, m s a = some t → P s a t ∧ Along m P t as

@[simp] theorem along_nil (P : σ → α → σ → Prop) (s : σ) : m.Along P s [] := trivial

theorem along_cons {P : σ → α → σ → Prop} {s : σ} {a : α} {as : List α} :
    m.Along P s (a :: as) ↔ ∀ t, m s a = some t → P s a t ∧ m.Along P t as := Iff.rfl

theorem along_cons_of_step {P : σ → α → σ → Prop} {s t : σ} {a : α} {as : List α}
    (hstep : m s a = some t) : m.Along P s (a :: as) ↔ P s a t ∧ m.Along P t as := by
  rw [along_cons]
  constructor
  · exact fun h => h t hstep
  · intro h u hu
    obtain rfl : t = u := Option.some.inj (hstep.symm.trans hu)
    exact h

instance Along.decidable {P : σ → α → σ → Prop} [∀ s a t, Decidable (P s a t)] :
    (s : σ) → (as : List α) → Decidable (m.Along P s as)
  | _, [] => isTrue trivial
  | s, a :: as =>
    match h : m s a with
    | none => isTrue fun t ht => by simp [h] at ht
    | some t =>
      have : Decidable (m.Along P t as) := Along.decidable t as
      decidable_of_iff (P s a t ∧ m.Along P t as) (along_cons_of_step h).symm

/-- A run that leaves an open phase for a closed one. What is to be known of its end is decided
by the step that closes; every step before keeps `P`, and no step after it matters. -/
theorem along_iff_of_phases {Open Closed G : σ → Prop} {P : σ → α → σ → Prop}
    (hopen : ∀ s a t, Open s → m s a = some t →
      Open t ∧ P s a t ∨ Closed t ∧ (G t ↔ P s a t))
    (hclosed : ∀ s a t, Closed s → m s a = some t → Closed t ∧ (G t ↔ G s) ∧ P s a t)
    {s t : σ} {as : List α} (hs : Open s) (hrun : m.run s as = some t) (ht : ¬ Open t) :
    G t ↔ m.Along P s as := by
  have hrest : ∀ {s : σ} {as : List α}, Closed s → m.run s as = some t →
      (G t ↔ G s) ∧ m.Along P s as := by
    intro s as hs hrun
    induction as generalizing s with
    | nil =>
      obtain rfl : s = t := by simpa using hrun
      exact ⟨Iff.rfl, trivial⟩
    | cons a as ih =>
      obtain ⟨u, hu, hrun⟩ := run_cons_eq_some.mp hrun
      obtain ⟨hcu, hg, hp⟩ := hclosed s a u hs hu
      obtain ⟨hgt, halong⟩ := ih hcu hrun
      exact ⟨hgt.trans hg, (along_cons_of_step hu).mpr ⟨hp, halong⟩⟩
  induction as generalizing s with
  | nil =>
    obtain rfl : s = t := by simpa using hrun
    exact absurd hs ht
  | cons a as ih =>
    obtain ⟨u, hu, hrun⟩ := run_cons_eq_some.mp hrun
    rw [along_cons_of_step hu]
    rcases hopen s a u hs hu with ⟨hou, hp⟩ | ⟨hcu, hg⟩
    · exact (ih hou hrun).trans (and_iff_right hp).symm
    · obtain ⟨hgt, halong⟩ := hrest hcu hrun
      exact hgt.trans (hg.trans (and_iff_left halong).symm)

/-- Along a run one step property gives another, under an invariant that the first keeps. -/
theorem Along.imp {I : σ → Prop} {P Q : σ → α → σ → Prop}
    (h : ∀ s a t, I s → m s a = some t → P s a t → Q s a t ∧ I t)
    {s : σ} {as : List α} (hs : I s) (hP : m.Along P s as) : m.Along Q s as := by
  induction as generalizing s with
  | nil => trivial
  | cons a as ih =>
    intro t ht
    obtain ⟨hp, hrest⟩ := hP t ht
    obtain ⟨hq, hi⟩ := h s a t hs ht hp
    exact ⟨hq, ih hi hrest⟩

theorem Along.and {P Q : σ → α → σ → Prop} {s : σ} {as : List α} (hP : m.Along P s as)
    (hQ : m.Along Q s as) : m.Along (fun s a t => P s a t ∧ Q s a t) s as := by
  induction as generalizing s with
  | nil => trivial
  | cons a as ih =>
    intro t ht
    obtain ⟨hp, hprest⟩ := hP t ht
    obtain ⟨hq, hqrest⟩ := hQ t ht
    exact ⟨⟨hp, hq⟩, ih hprest hqrest⟩

/-- What all the actions satisfy can be used at every step. -/
theorem along_of_forall {R : α → Prop} {s : σ} {as : List α} (hR : ∀ a ∈ as, R a) :
    m.Along (fun _ a _ => R a) s as := by
  induction as generalizing s with
  | nil => trivial
  | cons a as ih =>
    intro t _
    obtain ⟨ha, has⟩ := List.forall_mem_cons.mp hR
    exact ⟨ha, ih has⟩

theorem Along.and_forall {P : σ → α → σ → Prop} {R : α → Prop} {s : σ} {as : List α}
    (hR : ∀ a ∈ as, R a) (hP : m.Along P s as) : m.Along (fun s a t => R a ∧ P s a t) s as :=
  (along_of_forall hR).and hP

/-- Step properties that agree under an invariant agree along every run. -/
theorem along_congr_of_invariant {I : σ → Prop} {P Q : σ → α → σ → Prop}
    (hinv : ∀ s a t, I s → m s a = some t → I t)
    (h : ∀ s a t, I s → m s a = some t → (P s a t ↔ Q s a t))
    {s : σ} {as : List α} (hs : I s) : m.Along P s as ↔ m.Along Q s as :=
  ⟨Along.imp (fun s a t hi ht hp => ⟨(h s a t hi ht).mp hp, hinv s a t hi ht⟩) hs,
    Along.imp (fun s a t hi ht hq => ⟨(h s a t hi ht).mpr hq, hinv s a t hi ht⟩) hs⟩

/-- Step properties that agree agree along every run. -/
theorem along_congr {P Q : σ → α → σ → Prop}
    (h : ∀ s a t, m s a = some t → (P s a t ↔ Q s a t)) (s : σ) (as : List α) :
    m.Along P s as ↔ m.Along Q s as :=
  along_congr_of_invariant (I := fun _ => True) (fun _ _ _ _ _ => trivial)
    (fun s a t _ ht => h s a t ht) trivial

theorem along_append {P : σ → α → σ → Prop} {s : σ} {as bs : List α} :
    m.Along P s (as ++ bs) ↔ m.Along P s as ∧ ∀ t, m.run s as = some t → m.Along P t bs := by
  induction as generalizing s with
  | nil => simp
  | cons a as ih =>
    rw [List.cons_append, along_cons, along_cons]
    constructor
    · intro h
      refine ⟨fun t ht => ⟨(h t ht).1, (ih.mp (h t ht).2).1⟩, ?_⟩
      intro u hu
      obtain ⟨t, ht, hu⟩ := run_cons_eq_some.mp hu
      exact (ih.mp (h t ht).2).2 u hu
    · intro h t ht
      refine ⟨(h.1 t ht).1, ih.mpr ⟨(h.1 t ht).2, fun u hu => ?_⟩⟩
      exact h.2 u (run_cons_eq_some.mpr ⟨t, ht, hu⟩)

/-- A run whose steps all satisfy `P` ends in the invariant that such steps keep. The
invariant also sees the actions so far. -/
theorem Along.history {I : List α → σ → Prop} {P : σ → α → σ → Prop}
    (h : ∀ as s a t, I as s → m s a = some t → P s a t → I (as ++ [a]) t)
    {s t : σ} {as : List α} (hs : I [] s) (hP : m.Along P s as)
    (hrun : m.run s as = some t) : I as t := by
  induction as using List.reverseRecOn generalizing t with
  | nil =>
    obtain rfl : s = t := by simpa using hrun
    exact hs
  | append_singleton as a ih =>
    obtain ⟨u, hu, ha⟩ := run_concat_eq_some.mp hrun
    obtain ⟨has, hlast⟩ := along_append.mp hP
    exact h as u a t (ih has hu) ha (hlast u hu t ha).1

/-- An invariant that relates the state to the actions taken so far, for runs whose
actions all satisfy `P`. -/
theorem run_history {I : List α → σ → Prop} {P : α → Prop}
    (hstep : ∀ as s a t, I as s → P a → m s a = some t → I (as ++ [a]) t)
    {s t : σ} {as : List α} (hs : I [] s) (hP : ∀ a ∈ as, P a)
    (hrun : m.run s as = some t) : I as t :=
  Along.history (fun as s a t hi ht ha => hstep as s a t hi ha ht) hs (along_of_forall hP) hrun

/-- Where a measure falls with each step that satisfies `P`, it bounds the length of a run of such
steps. -/
theorem length_add_le {I : σ → Prop} {P : α → Prop} {μ : σ → Nat}
    (hstep : ∀ s a t, I s → P a → m s a = some t → I t ∧ μ t < μ s) {s t : σ} {as : List α}
    (hs : I s) (hP : ∀ a ∈ as, P a) (hrun : m.run s as = some t) :
    I t ∧ as.length + μ t ≤ μ s := by
  induction as generalizing s with
  | nil =>
    obtain rfl : s = t := by simpa using hrun
    exact ⟨hs, by simp⟩
  | cons a as ih =>
    obtain ⟨u, hu, hrun⟩ := run_cons_eq_some.mp hrun
    obtain ⟨ha, hP⟩ := List.forall_mem_cons.mp hP
    obtain ⟨hnext, hlt⟩ := hstep s a u hs ha hu
    obtain ⟨ht, hle⟩ := ih hnext hP hrun
    exact ⟨ht, by rw [List.length_cons]; omega⟩

/-- A run without the actions that are not `p`, where those make no difference to what `R`
relates. -/
theorem run_filter {R : σ → σ → Prop} {p : α → Bool}
    (hkeep : ∀ s s' a t, R s s' → m s a = some t → p a = true →
      ∃ t', m s' a = some t' ∧ R t t')
    (hdrop : ∀ s s' a t, R s s' → m s a = some t → p a = false → R t s')
    {s s' t : σ} {as : List α} (h : R s s') (hrun : m.run s as = some t) :
    ∃ t', m.run s' (as.filter p) = some t' ∧ R t t' := by
  induction as generalizing s s' with
  | nil =>
    obtain rfl : s = t := by simpa using hrun
    exact ⟨s', rfl, h⟩
  | cons a as ih =>
    obtain ⟨u, hu, hrun⟩ := run_cons_eq_some.mp hrun
    cases hp : p a with
    | false =>
      rw [List.filter_cons_of_neg (by simp [hp])]
      exact ih (hdrop s s' a u h hu hp) hrun
    | true =>
      obtain ⟨u', hu', hR⟩ := hkeep s s' a u h hu hp
      obtain ⟨t', ht', hR'⟩ := ih hR hrun
      rw [List.filter_cons_of_pos hp]
      exact ⟨t', run_cons_eq_some.mpr ⟨u', hu', ht'⟩, hR'⟩

/-- `Along` spelled out: the property at every step, in the state its prefix reaches. -/
theorem along_iff_forall {P : σ → α → σ → Prop} {s : σ} {as : List α} :
    m.Along P s as ↔ ∀ pre a post, as = pre ++ a :: post →
      ∀ u t, m.run s pre = some u → m u a = some t → P u a t := by
  induction as generalizing s with
  | nil => simp
  | cons b as ih =>
    rw [along_cons]
    constructor
    · intro h pre a post has u t hu ht
      cases pre with
      | nil =>
        obtain ⟨rfl, rfl⟩ : b = a ∧ as = post := by simpa using has
        obtain rfl : s = u := by simpa using hu
        exact (h t ht).1
      | cons c pre =>
        obtain ⟨rfl, rfl⟩ : b = c ∧ as = pre ++ a :: post := by simpa using has
        obtain ⟨v, hv, hu⟩ := run_cons_eq_some.mp hu
        exact ih.mp (h v hv).2 pre a post rfl u t hu ht
    · intro h t ht
      refine ⟨h [] b as rfl s t rfl ht, ih.mpr ?_⟩
      intro pre a post has u v hu hv
      exact h (b :: pre) a post (by simp [has]) u v (run_cons_eq_some.mpr ⟨t, ht, hu⟩) hv

/-- What `obs` sees of the steps that the actions take from `s`. -/
def observe {ε : Type*} (m : Machine σ α) (obs : σ → α → List ε) : σ → List α → List ε
  | _, [] => []
  | s, a :: as => obs s a ++ (m s a).elim [] fun t => observe m obs t as

theorem observe_append {ε : Type*} {obs : σ → α → List ε} {s t : σ} {as : List α}
    (hrun : m.run s as = some t) (bs : List α) :
    m.observe obs s (as ++ bs) = m.observe obs s as ++ m.observe obs t bs := by
  induction as generalizing s with
  | nil =>
    obtain rfl : s = t := by simpa using hrun
    rfl
  | cons a as ih =>
    obtain ⟨u, hu, hrun⟩ := run_cons_eq_some.mp hrun
    simp only [List.cons_append, observe, hu, Option.elim_some, ih hrun, List.append_assoc]

@[simp] theorem observe_nil {ε : Type*} (obs : σ → α → List ε) (s : σ) :
    m.observe obs s [] = [] := rfl

@[simp] theorem observe_singleton {ε : Type*} (obs : σ → α → List ε) (s : σ) (a : α) :
    m.observe obs s [a] = obs s a := by
  rw [observe]
  cases m s a with
  | none => exact List.append_nil _
  | some t => exact List.append_nil _

theorem observe_concat {ε : Type*} {obs : σ → α → List ε} {s t : σ} {as : List α}
    (hrun : m.run s as = some t) (a : α) :
    m.observe obs s (as ++ [a]) = m.observe obs s as ++ obs t a := by
  rw [observe_append hrun, observe_singleton]

/-- An invariant that relates the state to what was observed, for runs whose steps all
satisfy `P`. -/
theorem Along.observed {ε : Type*} {obs : σ → α → List ε} {I : List ε → σ → Prop}
    {P : σ → α → σ → Prop}
    (hstep : ∀ l s a t, I l s → m s a = some t → P s a t → I (l ++ obs s a) t)
    {s t : σ} {as : List α} (hs : I [] s) (hP : m.Along P s as)
    (hrun : m.run s as = some t) : I (m.observe obs s as) t := by
  have hend := Along.history (I := fun bs u => m.run s bs = some u ∧ I (m.observe obs s bs) u)
    ?_ ⟨rfl, hs⟩ hP hrun
  · exact hend.2
  · rintro bs u a v ⟨hu, hi⟩ ha hp
    rw [observe_concat hu]
    exact ⟨run_concat_eq_some.mpr ⟨u, hu, ha⟩, hstep _ u a v hi ha hp⟩

/-- An invariant that relates the state to what was observed. -/
theorem run_observed {ε : Type*} {obs : σ → α → List ε} {I : List ε → σ → Prop}
    (hstep : ∀ l s a t, I l s → m s a = some t → I (l ++ obs s a) t)
    {s t : σ} {as : List α} (hs : I [] s) (hrun : m.run s as = some t) :
    I (m.observe obs s as) t :=
  Along.observed (P := fun _ _ _ => True) (fun l s a t hi ht _ => hstep l s a t hi ht) hs
    (along_of_forall fun _ _ => trivial) hrun

/-- What is seen is seen of one of the steps. -/
theorem mem_observe {ε : Type*} {obs : σ → α → List ε} {s : σ} {as : List α} {e : ε}
    (h : e ∈ m.observe obs s as) :
    ∃ pre a post u, as = pre ++ a :: post ∧ m.run s pre = some u ∧ e ∈ obs u a := by
  induction as generalizing s with
  | nil => cases h
  | cons a as ih =>
    rcases List.mem_append.mp h with h | h
    · exact ⟨[], a, as, s, rfl, rfl, h⟩
    · cases ht : m s a with
      | none =>
        rw [ht] at h
        cases h
      | some t =>
        rw [ht] at h
        obtain ⟨pre, b, post, u, rfl, hu, hb⟩ := ih h
        exact ⟨a :: pre, b, post, u, rfl, run_cons_eq_some.mpr ⟨t, ht, hu⟩, hb⟩

theorem countP_observe {ε : Type*} {obs : σ → α → List ε} {q : ε → Bool} {p : α → Bool}
    (hobs : ∀ s a t, m s a = some t → (obs s a).countP q = (p a).toNat) {s t : σ} {as : List α}
    (hrun : m.run s as = some t) : (m.observe obs s as).countP q = as.countP p := by
  induction as generalizing s with
  | nil => rfl
  | cons a as ih =>
    obtain ⟨u, hu, hrun⟩ := run_cons_eq_some.mp hrun
    simp only [observe, hu, Option.elim_some]
    rw [List.countP_append, hobs s a u hu, ih hrun, List.countP_cons, Nat.add_comm]
    cases p a <;> rfl

theorem observe_filterMap {ε ε' : Type*} {obs : σ → α → List ε} (g : ε → Option ε') (s : σ)
    (as : List α) :
    (m.observe obs s as).filterMap g = m.observe (fun s a => (obs s a).filterMap g) s as := by
  induction as generalizing s with
  | nil => rfl
  | cons a as ih =>
    rw [observe, observe, List.filterMap_append]
    cases m s a with
    | none => rfl
    | some t => rw [Option.elim_some, Option.elim_some, ih]

/-- Where a step shows at most one thing, each thing seen is that of one step. -/
theorem exists_step_of_observe {ε : Type*} {obs : σ → α → List ε}
    (hobs : ∀ s a, (obs s a).length ≤ 1) {s t : σ} {as : List α} {l r : List ε} {e : ε}
    (hrun : m.run s as = some t) (h : m.observe obs s as = l ++ e :: r) :
    ∃ pre a post u, as = pre ++ a :: post ∧ m.run s pre = some u ∧
      m.observe obs s pre = l ∧ obs u a = [e] := by
  induction as generalizing s l with
  | nil => simp [observe] at h
  | cons a as ih =>
    obtain ⟨u, hu, hrun⟩ := run_cons_eq_some.mp hrun
    simp only [observe, hu, Option.elim_some] at h
    have hrest : ∀ l', l = obs s a ++ l' → m.observe obs u as = l' ++ e :: r →
        ∃ pre b post v, a :: as = pre ++ b :: post ∧ m.run s pre = some v ∧
          m.observe obs s pre = l ∧ obs v b = [e] := by
      rintro l' rfl hl'
      obtain ⟨pre, b, post, v, rfl, hv, hpre, hb⟩ := ih hrun hl'
      refine ⟨a :: pre, b, post, v, rfl, run_cons_eq_some.mpr ⟨u, hu, hv⟩, ?_, hb⟩
      simp only [observe, hu, Option.elim_some, hpre]
    match hone : obs s a, hobs s a with
    | [], _ =>
      rw [hone] at h
      exact hrest l (by simp [hone]) h
    | [x], _ =>
      rw [hone, List.singleton_append] at h
      cases l with
      | nil =>
        obtain ⟨rfl, -⟩ := List.cons.inj h
        exact ⟨[], a, as, s, rfl, rfl, rfl, hone⟩
      | cons y l =>
        obtain ⟨rfl, htail⟩ := List.cons.inj h
        exact hrest l (by simp [hone]) htail

section Refinement

variable {τ β : Type*} {n : Machine τ β} {f : σ → τ} {obs : σ → α → List β}

/-- Where every step is, seen through `f`, the observed steps of another machine, so is every
run. -/
theorem run_refines (hstep : ∀ s a t, m s a = some t → n.run (f s) (obs s a) = some (f t))
    {s t : σ} {as : List α} (hrun : m.run s as = some t) :
    n.run (f s) (m.observe obs s as) = some (f t) := by
  induction as generalizing s with
  | nil =>
    obtain rfl : s = t := by simpa using hrun
    rfl
  | cons a as ih =>
    obtain ⟨u, hu, hrun⟩ := run_cons_eq_some.mp hrun
    simp only [observe, hu, Option.elim_some]
    rw [run_append, hstep s a u hu]
    exact ih hrun

/-- What is seen of the other machine is seen of the steps. -/
theorem observe_refines {ε : Type*} {see : τ → β → List ε}
    (hstep : ∀ s a t, m s a = some t → n.run (f s) (obs s a) = some (f t))
    {s t : σ} {as : List α} (hrun : m.run s as = some t) :
    n.observe see (f s) (m.observe obs s as) =
      m.observe (fun u a => n.observe see (f u) (obs u a)) s as := by
  induction as generalizing s with
  | nil => rfl
  | cons a as ih =>
    obtain ⟨u, hu, hrun⟩ := run_cons_eq_some.mp hrun
    simp only [observe, hu, Option.elim_some]
    rw [observe_append (hstep s a u hu), ih hrun]

end Refinement

end Machine
