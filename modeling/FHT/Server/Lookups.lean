import FHT.Hendler.Snapshots
import Mathlib.Data.List.Infix
import FHT.Server.Dispatch

/-!
# Routing while the registry changes

The routing loop asks the registry for one key after the other, and between two of its passes the
registry may publish another table. Each pass sees the table that is published at its moment.

## Main definitions

- `Lookups` — the registry with a request that is being routed
- `selectAt` — the selection of the loop, where each key is looked up in a table of its own

## Main results

- `Lookups.linearized` — what a request is routed to, and when this is the answer of one table
-/

namespace FHT.Server

open StdString

variable {F G A : Type}

/-- The locals of the routing loop, until it has ended or an `at` or a `substr` has thrown. -/
inductive Loop (F : Type)
  | looping (i : Nat) (func : Option F) (nextLocation : Str)
  | ended (func : Option F) (nextLocation : Str)
  | threw
  deriving DecidableEq

/-- One pass of the loop at counter `i`, where `get` is `H->getUniqueHendler`. -/
def routePass (get : Str → Option F) (isWS : Bool) (loc : Str) :
    Nat → Option F → Str → Option (Loop F)
  | 0, func, nextLocation => some (.ended func nextLocation)
  | i + 1, func, nextLocation => do
    let slash ← atSlash loc (i + 1)
    if slash then
      let path ← substr loc (some 0) (some (i + 1))
      match get (handlerKey isWS path) with
      | some f =>
        let rest ← substr loc (some (i + 1)) (some (loc.length - (i + 2)))
        some (.ended (some f) (nextLocation ++ rest))
      | none => some (.looping i none nextLocation)
    else some (.looping i func nextLocation)

/-- The registry with the loop of one request. -/
structure Lookups (F G : Type) where
  registry : Hendler.Shared F G
  loop : Loop F

inductive LookupsAction (F G : Type)
  | registry (a : Hendler.SharedAction F G)
  | pass

/-- `select` where each prefix is looked up in a table of its own. -/
def selectAt (H : Nat → StdMap Str F) (isWS : Bool) (L : Str) : Nat → Option (F × Nat)
  | 0 => none
  | i + 1 =>
    if IsCut L (i + 1) then
      match (H (i + 1))[handlerKey isWS (L.take (i + 1))]? with
      | some f => some (f, i + 1)
      | none => selectAt H isWS L i
    else selectAt H isWS L i

section SelectAt

variable (isWS : Bool) (L : Str)

theorem selectAt_congr {H H' : Nat → StdMap Str F} {i : Nat} (h : ∀ j ≤ i, H j = H' j) :
    selectAt H isWS L i = selectAt H' isWS L i := by
  induction i with
  | zero => rfl
  | succ i ih =>
    rw [selectAt, selectAt, ih fun j hj => h j (Nat.le_succ_of_le hj), h (i + 1) (Nat.le_refl _)]

theorem le_of_selectAt {H : Nat → StdMap Str F} {n : Nat} {f : F} {i : Nat}
    (h : selectAt H isWS L n = some (f, i)) : i ≤ n := by
  induction n with
  | zero => cases h
  | succ n ih =>
    rw [selectAt] at h
    split at h
    · split at h
      · obtain ⟨rfl, rfl⟩ : _ = f ∧ n + 1 = i := by simpa using h
        exact Nat.le_refl _
      · exact Nat.le_succ_of_le (ih h)
    · exact Nat.le_succ_of_le (ih h)

theorem getElem?_of_selectAt {H : Nat → StdMap Str F} {n : Nat} {f : F} {i : Nat}
    (h : selectAt H isWS L n = some (f, i)) : (H i)[handlerKey isWS (L.take i)]? = some f := by
  induction n with
  | zero => cases h
  | succ n ih =>
    rw [selectAt] at h
    split at h
    · split at h
      · next hf =>
        obtain ⟨rfl, rfl⟩ : _ = f ∧ n + 1 = i := by simpa using h
        exact hf
      · exact ih h
    · exact ih h

/-- A table selects alike if it holds what was selected, and nothing of what was missed before. -/
theorem select_eq_selectAt {H : Nat → StdMap Str F} {T : StdMap Str F} {n : Nat}
    (hmiss : ∀ j ≤ n, IsCut L j → (∀ f i, selectAt H isWS L n = some (f, i) → i < j) →
      (H j)[handlerKey isWS (L.take j)]? = none → T[handlerKey isWS (L.take j)]? = none)
    (hfound : ∀ f i, selectAt H isWS L n = some (f, i) → T[handlerKey isWS (L.take i)]? = some f) :
    select T isWS L n = selectAt H isWS L n := by
  induction n with
  | zero => rfl
  | succ n ih =>
    rw [select]
    rw [selectAt] at hmiss hfound ⊢
    by_cases hcut : IsCut L (n + 1)
    · rw [if_pos hcut] at hmiss hfound ⊢
      rw [if_pos hcut]
      cases hH : (H (n + 1))[handlerKey isWS (L.take (n + 1))]? with
      | some f =>
        rw [hH] at hfound
        rw [hfound f (n + 1) rfl]
      | none =>
        rw [hH] at hmiss hfound
        rw [hmiss (n + 1) (Nat.le_refl _) hcut
          (fun f i hi => Nat.lt_succ_of_le (le_of_selectAt isWS L hi)) hH]
        exact ih (fun j hj => hmiss j (Nat.le_succ_of_le hj)) hfound
    · rw [if_neg hcut] at hmiss hfound ⊢
      rw [if_neg hcut]
      exact ih (fun j hj => hmiss j (Nat.le_succ_of_le hj)) hfound

end SelectAt

/-- One pass over a location, to which the servers append a slash. -/
theorem routePass_succ (get : Str → Option F) (isWS : Bool) (L : Str) {i : Nat}
    (hi : i + 1 ≤ L.length) (func : Option F) (nextLocation : Str) :
    routePass get isWS (L ++ ['/']) (i + 1) func nextLocation = some
      (if IsCut L (i + 1) then
        match get (handlerKey isWS (L.take (i + 1))) with
        | some f => .ended (some f) (nextLocation ++ L.drop (i + 1))
        | none => .looping i none nextLocation
      else .looping i func nextLocation) := by
  have hpath : substr (L ++ ['/']) (some 0) (some (i + 1)) = some (L.take (i + 1)) := by
    rw [substr_of_le _ (Nat.zero_le _), List.drop_zero, List.take_append_of_le_length hi]
  have hrest : substr (L ++ ['/']) (some (i + 1)) (some ((L ++ ['/']).length - (i + 2))) =
      some (L.drop (i + 1)) := by
    have hlen : (L ++ ['/']).length - (i + 2) = (L.drop (i + 1)).length := by
      simp only [List.length_append, List.length_drop, List.length_singleton]
      omega
    rw [substr_of_le _ (by simp; omega), List.drop_append_of_le_length hi, hlen,
      List.take_left' rfl]
  rw [routePass, atSlash_eq_isCut L hi, Option.bind_eq_bind, Option.bind_some]
  by_cases hcut : IsCut L (i + 1)
  · simp only [hcut, decide_true, Option.bind_eq_bind, Option.bind_some, if_true, hpath, hrest]
    cases get (handlerKey isWS (L.take (i + 1))) <;> rfl
  · simp [hcut]

/-- An id that is in no table stays in none until it is registered. -/
theorem getElem?_tableAfter_append {us vs : List (Update F)} {id : Str}
    (hnone : (tableAfter us)[id]? = none) (hvs : ∀ v ∈ vs, v.registers id = none) :
    (tableAfter (us ++ vs))[id]? = none := by
  induction vs using List.reverseRecOn with
  | nil => rwa [List.append_nil]
  | append_singleton vs v ih =>
    have hbefore := ih fun w hw => hvs w (List.mem_append_left _ hw)
    rw [tableAfter] at hbefore
    rw [tableAfter, ← List.append_assoc, Snapshot.after_append, getElem?_run, hbefore,
      hvs v (by simp)]
    simp

namespace Lookups

/-- The updates that the lookups of a loop have seen: no fewer from pass to pass, as the counter
goes down from `i`. -/
structure Views (s t : Hendler.Shared F G) (i : Nat) (us : Nat → List (Update F)) : Prop where
  since : ∀ j ≤ i, s.shownHendler <+: us j
  upTo : ∀ j ≤ i, us j <+: t.shownHendler
  antitone : ∀ j k, j ≤ k → k ≤ i → us k <+: us j

theorem Views.const {s t : Hendler.Shared F G} (h : s.shownHendler <+: t.shownHendler) (i : Nat) :
    Views s t i fun _ => s.shownHendler :=
  ⟨fun _ _ => List.prefix_rfl, fun _ _ => h, fun _ _ _ _ => List.prefix_rfl⟩

/-- One more pass, before the others. -/
theorem Views.cons {s t : Hendler.Shared F G} {i : Nat} {us : Nat → List (Update F)}
    (h : Views s t i us) (hst : s.shownHendler <+: t.shownHendler) :
    Views s t (i + 1) (Function.update us (i + 1) s.shownHendler) := by
  have hbelow : ∀ j ≤ i, Function.update us (i + 1) s.shownHendler j = us j := fun j hj =>
    Function.update_of_ne (Nat.ne_of_lt (Nat.lt_succ_of_le hj)) _ _
  constructor
  · intro j hj
    rcases Nat.le_succ_iff.mp hj with hj | rfl
    · rw [hbelow j hj]
      exact h.since j hj
    · simp only [Function.update_self, List.prefix_rfl]
  · intro j hj
    rcases Nat.le_succ_iff.mp hj with hj | rfl
    · rw [hbelow j hj]
      exact h.upTo j hj
    · rw [Function.update_self]
      exact hst
  · intro j k hjk hk
    rcases Nat.le_succ_iff.mp hk with hk | rfl
    · rw [hbelow k hk, hbelow j (Nat.le_trans hjk hk)]
      exact h.antitone j k hjk hk
    · rw [Function.update_self]
      rcases Nat.le_succ_iff.mp hjk with hj | rfl
      · rw [hbelow j hj]
        exact h.since j hj
      · simp only [Function.update_self, List.prefix_rfl]

theorem Views.of_shown {s s' t : Hendler.Shared F G} {i : Nat} {us : Nat → List (Update F)}
    (h : Views s' t i us) (hs : s.shownHendler <+: s'.shownHendler) : Views s t i us :=
  ⟨fun j hj => hs.trans (h.since j hj), h.upTo, h.antitone⟩

/-- The loop before its first pass. -/
def start (registry : Hendler.Shared F G) (L : Str) (func : Option F) : Lookups F G :=
  ⟨registry, .looping ((L ++ ['/']).length - 1) func ['.']⟩

variable {isWS : Bool} {loc L : Str} {s t : Lookups F G}

/-- What the loop leaves behind a location, if it selects `p`. -/
def outcome (L : Str) (func : Option F) (p : Option (F × Nat)) : Option F × Str :=
  if L = [] then (func, ['.']) else routed L p

/-- The loop has not thrown in `t`. If it has ended there, it has selected by what its passes saw
since `s`, where its counter was `i`. -/
def Selected (isWS : Bool) (L : Str) (i : Nat) (func : Option F) (s t : Lookups F G) : Prop :=
  t.loop ≠ .threw ∧ ∀ func' nextLocation, t.loop = .ended func' nextLocation →
    ∃ us, Views s.registry t.registry i us ∧ (func', nextLocation) =
      outcome L func (selectAt (fun j => tableAfter (us j)) isWS L i)

variable {i : Nat} {func : Option F}

/-- The loop ends with this pass. -/
theorem selected_of_ended {f : Option F} {nextLocation : Str}
    (hshown : s.registry.shownHendler <+: t.registry.shownHendler)
    (ht : t.loop = .ended f nextLocation)
    (heq : (f, nextLocation) = outcome L func
      (selectAt (fun _ => tableAfter s.registry.shownHendler) isWS L i)) :
    Selected isWS L i func s t := by
  rw [Selected, ht]
  refine ⟨by simp, ?_⟩
  rintro _ _ ⟨⟩
  exact ⟨_, .const hshown i, heq⟩

/-- The loop goes on at the next counter without a handler. -/
theorem selected_of_next {u : Lookups F G} (hL : L ≠ []) (hu : u.registry = s.registry)
    (hshown : s.registry.shownHendler <+: t.registry.shownHendler)
    (hsel : ∀ H : Nat → StdMap Str F, H (i + 1) = tableAfter s.registry.shownHendler →
      selectAt H isWS L (i + 1) = selectAt H isWS L i)
    (h : Selected isWS L i none u t) : Selected isWS L (i + 1) func s t := by
  obtain ⟨hthrew, hend⟩ := h
  refine ⟨hthrew, fun func' nextLocation ht => ?_⟩
  obtain ⟨us, hviews, heq⟩ := hend func' nextLocation ht
  rw [hu] at hviews
  refine ⟨_, hviews.cons hshown, ?_⟩
  rw [heq, hsel _ (by rw [Function.update_self]), outcome, outcome, if_neg hL, if_neg hL]
  congr 1
  refine selectAt_congr isWS L fun j hj => ?_
  rw [Function.update_of_ne (Nat.ne_of_lt (Nat.lt_succ_of_le hj))]

/-- Where no key of the location was added in the meantime, what was selected is what one of the
tables gives: the one that the last lookup has seen. -/
theorem exists_select_of_views {s t : Hendler.Shared F G} {us : Nat → List (Update F)}
    (h : Views s t L.length us)
    (hadded : ∀ v ∈ t.shownHendler.drop s.shownHendler.length, ∀ i, IsCut L i →
      v.registers (handlerKey isWS (L.take i)) = none) :
    ∃ shown, s.shownHendler <+: shown ∧ shown <+: t.shownHendler ∧
      select (tableAfter shown) isWS L L.length =
        selectAt (fun j => tableAfter (us j)) isWS L L.length := by
  have hmiss : ∀ j ≤ L.length, IsCut L j → ∀ shown, us j <+: shown → shown <+: t.shownHendler →
      (tableAfter (us j))[handlerKey isWS (L.take j)]? = none →
      (tableAfter shown)[handlerKey isWS (L.take j)]? = none := by
    rintro j hj hcut _ ⟨vs, rfl⟩ ⟨ws, hws⟩ hnone
    refine getElem?_tableAfter_append hnone fun v hv => hadded v ?_ j hcut
    obtain ⟨xs, hxs⟩ := h.since j hj
    rw [← hws, ← hxs, List.append_assoc, List.append_assoc, List.drop_left]
    exact List.mem_append_right _ (List.mem_append_left _ hv)
  cases hsel : selectAt (fun j => tableAfter (us j)) isWS L L.length with
  | none =>
    -- nothing was found, and no prefix has been registered since
    refine ⟨t.shownHendler, (h.since 0 (Nat.zero_le _)).trans (h.upTo 0 (Nat.zero_le _)),
      List.prefix_rfl, ?_⟩
    rw [← hsel]
    refine select_eq_selectAt isWS L ?_ ?_
    · exact fun j hj hcut _ => hmiss j hj hcut _ (h.upTo j hj) List.prefix_rfl
    · intro f i hi
      rw [hsel] at hi
      cases hi
  | some p =>
    obtain ⟨f, k⟩ := p
    have hk := le_of_selectAt isWS L hsel
    -- the table of the lookup that found `f`: the longer prefixes were looked up before it
    refine ⟨us k, h.since k hk, h.upTo k hk, ?_⟩
    rw [← hsel]
    refine select_eq_selectAt isWS L ?_ ?_
    · intro j hj hcut hlt
      exact hmiss j hj hcut _ (h.antitone k j (Nat.le_of_lt (hlt f k hsel)) hj) (h.upTo k hk)
    · intro g i hi
      obtain ⟨rfl, rfl⟩ : f = g ∧ k = i := by simpa using hsel.symm.trans hi
      exact getElem?_of_selectAt isWS L hsel

variable [DecidableEq F] [DecidableEq G]

def step (isWS : Bool) (loc : Str) : Machine (Lookups F G) (LookupsAction F G) :=
  fun s a =>
    match a, s.loop with
    | .registry a, _ => (Hendler.Shared.step s.registry a).map fun r => { s with registry := r }
    | .pass, .looping i func nextLocation =>
      some { s with
        loop := (routePass s.registry.hendler.getUniqueHendler isWS loc i func nextLocation).getD
          .threw }
    | .pass, .ended _ _ => none
    | .pass, .threw => none

theorem step_registry {a : Hendler.SharedAction F G} (h : step isWS loc s (.registry a) = some t) :
    t.loop = s.loop ∧ Hendler.Shared.step s.registry a = some t.registry := by
  obtain ⟨r, hr, rfl⟩ := Option.map_eq_some_iff.mp h
  exact ⟨rfl, hr⟩

theorem step_pass (h : step isWS loc s .pass = some t) :
    ∃ i func nextLocation, s.loop = .looping i func nextLocation ∧ t.registry = s.registry ∧
      t.loop = (routePass s.registry.hendler.getUniqueHendler isWS loc i func nextLocation).getD
        .threw := by
  unfold step at h
  cases hl : s.loop with
  | looping i func nextLocation =>
    rw [hl] at h
    obtain rfl := Option.some.inj h
    exact ⟨i, func, nextLocation, rfl, rfl, rfl⟩
  | ended | threw =>
    rw [hl] at h
    cases h

theorem step_follows {a : LookupsAction F G} (hs : s.registry.Consistent)
    (h : step isWS loc s a = some t) :
    t.registry.Consistent ∧ s.registry.Follows t.registry := by
  cases a with
  | registry a => exact Hendler.Shared.step_consistent hs (step_registry h).2
  | pass =>
    obtain ⟨-, -, -, -, hregistry, -⟩ := step_pass h
    rw [hregistry]
    exact ⟨hs, .refl _⟩

theorem run_follows {acts : List (LookupsAction F G)} (hs : s.registry.Consistent)
    (h : (step isWS loc).run s acts = some t) :
    t.registry.Consistent ∧ s.registry.Follows t.registry := by
  refine Machine.run_invariant
    (I := fun t => t.registry.Consistent ∧ s.registry.Follows t.registry) ?_ ⟨hs, .refl _⟩ h
  intro u a v ⟨hu, hsu⟩ hv
  obtain ⟨hv, huv⟩ := step_follows hu hv
  exact ⟨hv, hsu.trans huv⟩

/-- A loop that has ended makes no more passes. -/
theorem run_ended {acts : List (LookupsAction F G)} {func : Option F} {nextLocation : Str}
    (hs : s.loop = .ended func nextLocation) (h : (step isWS loc).run s acts = some t) :
    t.loop = .ended func nextLocation := by
  refine Machine.run_invariant (I := fun t => t.loop = .ended func nextLocation) ?_ hs h
  intro u a v hu hv
  cases a with
  | registry a => exact (step_registry hv).1.trans hu
  | pass =>
    obtain ⟨_, _, _, hloop, -⟩ := step_pass hv
    rw [hu] at hloop
    cases hloop

/-- In every run the loop does not throw, and it selects by what its passes see. -/
theorem selected_of_run {acts : List (LookupsAction F G)}
    (hs : s.registry.Consistent) (hloop : s.loop = .looping i func ['.']) (hi : i ≤ L.length)
    (hfunc : i < L.length → func = none)
    (hrun : (step isWS (L ++ ['/'])).run s acts = some t) : Selected isWS L i func s t := by
  induction acts generalizing s i func with
  | nil =>
    obtain rfl : s = t := by simpa using hrun
    rw [Selected, hloop]
    exact ⟨by simp, by simp⟩
  | cons a acts ih =>
    have hshown := ((run_follows hs hrun).2.shown hs).1
    obtain ⟨u, hu, hrest⟩ := Machine.run_cons_eq_some.mp hrun
    obtain ⟨hcons, hfollows⟩ := step_follows hs hu
    cases a with
    | registry a =>
      -- the registry moves between two lookups, and the loop stays where it is
      obtain ⟨hthrew, hend⟩ := ih hcons ((step_registry hu).1.trans hloop) hi hfunc hrest
      refine ⟨hthrew, fun func' nextLocation h => ?_⟩
      obtain ⟨us, hviews, heq⟩ := hend func' nextLocation h
      exact ⟨us, hviews.of_shown (hfollows.shown hs).1, heq⟩
    | pass =>
      obtain ⟨j, g, n, hj, hregistry, hpass⟩ := step_pass hu
      obtain ⟨rfl, rfl, rfl⟩ : i = j ∧ func = g ∧ ['.'] = n := by simpa [hloop] using hj
      cases i with
      | zero =>
        -- at counter 0 the loop ends with what `func` holds
        refine selected_of_ended hshown (run_ended hpass hrest) ?_
        unfold outcome
        split
        · rfl
        · next hL =>
          obtain rfl := hfunc (List.length_pos_iff.mpr hL)
          rfl
      | succ i =>
        have hL : L ≠ [] := List.length_pos_iff.mp (Nat.lt_of_lt_of_le (Nat.succ_pos i) hi)
        have hget := hs.getUniqueHendler (handlerKey isWS (L.take (i + 1)))
        rw [routePass_succ _ isWS L hi, Option.getD_some] at hpass
        by_cases hcut : IsCut L (i + 1)
        · rw [if_pos hcut] at hpass
          cases hf : s.registry.hendler.getUniqueHendler (handlerKey isWS (L.take (i + 1))) with
          | some f =>
            rw [hf] at hpass
            refine selected_of_ended hshown (run_ended hpass hrest) ?_
            rw [selectAt, if_pos hcut, ← hget, hf, outcome, if_neg hL]
            rfl
          | none =>
            rw [hf] at hpass
            refine selected_of_next hL hregistry hshown (fun H hH => ?_)
              (ih hcons hpass (Nat.le_of_succ_le hi) (fun _ => rfl) hrest)
            rw [selectAt, if_pos hcut, hH, ← hget, hf]
        · -- at the end of the location there is a cut, so `func` has been assigned before
          rw [if_neg hcut] at hpass
          obtain rfl := hfunc (Nat.lt_of_le_of_ne hi fun h => hcut (.inl h))
          refine selected_of_next hL hregistry hshown (fun H _ => ?_)
            (ih hcons hpass (Nat.le_of_succ_le hi) (fun _ => rfl) hrest)
          rw [selectAt, if_neg hcut]

/-- Whatever becomes of the registry while a request is routed, the loop does not throw, and it
selects the longest of the prefixes that were registered each at its own lookup; the lookups see
ever later tables. Unless a prefix of the location was registered in the meantime, the request is
routed as one of these tables says. -/
theorem linearized {pre : List (Hendler.SharedAction F G)} {s : Hendler.Shared F G}
    {a : Arrival F A} {lessenAll : Bool} {func : Option F} {acts : List (LookupsAction F G)}
    {t : Lookups F G} (hs : Hendler.Shared.step.run .init pre = some s)
    (hrun : (step a.req.isUpgrade (ownLocation lessenAll a.req.target ++ ['/'])).run
      (start s (ownLocation lessenAll a.req.target) func) acts = some t) :
    let L := ownLocation lessenAll a.req.target
    t.loop ≠ .threw ∧ ∀ func' nextLocation, t.loop = .ended func' nextLocation →
      (∃ us, Views s t.registry L.length us ∧ (func', nextLocation) =
        outcome L func (selectAt (fun i => tableAfter (us i)) a.req.isUpgrade L L.length)) ∧
      ((∀ v ∈ t.registry.shownHendler.drop s.shownHendler.length, ∀ i, IsCut L i →
          v.registers (handlerKey a.req.isUpgrade (L.take i)) = none) →
        ∃ shown, s.shownHendler <+: shown ∧ shown <+: t.registry.shownHendler ∧
          routing lessenAll func { a with H := tableAfter shown } = (func', nextLocation)) := by
  intro L
  have hcons : s.Consistent := (Hendler.Shared.run_consistent Hendler.Shared.consistent_init hs).1
  have hselected : Selected a.req.isUpgrade L L.length func (start s L func) t := by
    refine selected_of_run hcons ?_ (Nat.le_refl _) (fun h => absurd h (Nat.lt_irrefl _)) hrun
    simp [start]
  obtain ⟨hthrew, hend⟩ := hselected
  refine ⟨hthrew, fun func' nextLocation ht => ?_⟩
  obtain ⟨us, hviews, heq⟩ := hend func' nextLocation ht
  refine ⟨⟨us, hviews, heq⟩, fun hadded => ?_⟩
  obtain ⟨shown, hsince, hupTo, hsel⟩ := exists_select_of_views hviews hadded
  refine ⟨shown, hsince, hupTo, ?_⟩
  rw [heq, ← hsel]
  rfl

/-- A handler is added, its task runs, and the tables are published. -/
def published (id : Str) (prt : Nat) : List (Hendler.SharedAction Nat Nat) :=
  [.begin 0 (.addUniqueHendler id prt), .post 0, .runPosted 0] ++ Hendler.Shared.tick

def withTwo : Hendler.Shared Nat Nat :=
  (Hendler.Shared.step.run .init (published "/a".toList 2 ++ published "/a/b".toList 1)).getD .init

/-- While `/a/b/c` is routed, `/a/b` is removed: the request goes to `/a`, as if it were gone from
the start. -/
theorem linearized_removal :
    let removal : List (Hendler.SharedAction Nat Nat) :=
      [.begin 0 (.removeUniqueHendler "/a/b".toList), .post 0, .runPosted 0] ++ Hendler.Shared.tick
    ∃ t, (step false "/a/b/c/".toList).run (start withTwo "/a/b/c".toList none)
        (.pass :: removal.map .registry ++ List.replicate 4 .pass) = some t ∧
      ∃ shown, withTwo.shownHendler <+: shown ∧ shown <+: t.registry.shownHendler ∧
        routing false none { getWith "/a/b/c".toList [] with H := tableAfter shown } =
          (some 2, "./b/c".toList) := by
  intro removal
  have hs : Hendler.Shared.step.run .init
      (published "/a".toList 2 ++ published "/a/b".toList 1) = some withTwo := rfl
  have hrun : (step false "/a/b/c/".toList).run (start withTwo "/a/b/c".toList none)
      (.pass :: removal.map .registry ++ List.replicate 4 .pass) = some _ := rfl
  obtain ⟨-, hend⟩ :=
    @linearized _ _ _ _ _ _ _ (getWith "/a/b/c".toList []) false _ _ _ hs hrun
  refine ⟨_, hrun, (hend _ _ rfl).2 ?_⟩
  intro v hv i _
  obtain rfl : v = .erase "/a/b".toList := List.mem_singleton.mp hv
  rfl

/-- While `/a/b` is routed, first `/a/b` and then `/a` is added: the request goes to `/a`, as no
table that was published says. -/
theorem routed_between_tables :
    ∃ t, (step false "/a/b/".toList).run (start .init "/a/b".toList none)
        (.pass :: (published "/a/b".toList 1 ++ published "/a".toList 2).map .registry ++
          List.replicate 2 .pass) = some t ∧
      t.loop = .ended (some 2) "./b".toList ∧
      ∀ shown, shown <+: t.registry.shownHendler →
        routing false none { getWith "/a/b".toList [] with H := tableAfter shown } ≠
          (some 2, "./b".toList) := by
  have hrun : (step false "/a/b/".toList).run (start .init "/a/b".toList none)
      (.pass :: (published "/a/b".toList 1 ++ published "/a".toList 2).map .registry ++
        List.replicate 2 .pass) = some _ := rfl
  refine ⟨_, hrun, rfl, fun shown hshown => ?_⟩
  have hcases : shown ∈ [[], [.emplace "/a/b".toList 1],
      [.emplace "/a/b".toList 1, .emplace "/a".toList 2]] := (List.mem_inits _ _).mpr hshown
  simp only [List.mem_cons, List.not_mem_nil, or_false] at hcases
  rcases hcases with rfl | rfl | rfl
  · decide
  · decide
  · decide

end Lookups

end FHT.Server
