import FHT.Lib.Machine

/-!
# A queue with one server

The items wait in a queue. The first one is taken and served; then it goes back to the end, or
leaves. Others join at the end at any time, also while an item is served.

## Main definitions

- `Rotation.step` — the machine of the queue and its server
- `Rotation.taken` — the item that an event takes

## Main results

- `Rotation.taken_between` — what is taken between two turns of an item
-/

/-- The items that wait, in their order, and the one that is served. -/
structure Rotation (α : Type*) where
  waiting : List α
  served : Option α

namespace Rotation

inductive Event (α : Type*)
  | join (x : α)
  | take
  | again
  | leave

variable {α : Type*}

/-- One item is served at a time. -/
def step : Machine (Rotation α) (Event α)
  | ⟨w, s⟩, .join x => some ⟨w ++ [x], s⟩
  | ⟨x :: w, none⟩, .take => some ⟨w, some x⟩
  | ⟨w, some x⟩, .again => some ⟨w ++ [x], none⟩
  | ⟨w, some _⟩, .leave => some ⟨w, none⟩
  | _, _ => none

/-- The item that the event takes. -/
def taken (r : Rotation α) : Event α → List α
  | .take => r.waiting.head?.toList
  | .join _ | .again | .leave => []

/-- The item that joins. -/
def Event.joins : Event α → Option α
  | .join x => some x
  | .take | .again | .leave => none

/-- What a step does. -/
inductive Steps (r : Rotation α) : Event α → Rotation α → Prop
  | join (x : α) : Steps r (.join x) ⟨r.waiting ++ [x], r.served⟩
  | take {x w} (hw : r.waiting = x :: w) (hs : r.served = none) : Steps r .take ⟨w, some x⟩
  | again {x} (hs : r.served = some x) : Steps r .again ⟨r.waiting ++ [x], none⟩
  | leave {x} (hs : r.served = some x) : Steps r .leave ⟨r.waiting, none⟩

theorem step_cases {r r' : Rotation α} {e : Event α} (h : step r e = some r') :
    Steps r e r' := by
  obtain ⟨w, s⟩ := r
  cases e with
  | join x =>
    obtain rfl := Option.some.inj h
    exact .join x
  | take =>
    cases w with
    | nil => cases s <;> cases h
    | cons x w =>
      cases s with
      | none =>
        obtain rfl := Option.some.inj h
        exact .take rfl rfl
      | some y => cases h
  | again =>
    cases s with
    | none => cases h
    | some x =>
      obtain rfl := Option.some.inj h
      exact .again rfl
  | leave =>
    cases s with
    | none => cases h
    | some x =>
      obtain rfl := Option.some.inj h
      exact .leave rfl

/-- Where an item is that was served when the items `w` waited, after the events `es` by which
the items `out` were taken, but not this one again. -/
inductive Turn (w : List α) (x : α) (es : List (Event α)) (out : List α) (r : Rotation α) : Prop
  | served (hes : ∀ e ∈ es, e.joins.isSome) (hout : out = [])
      (hw : r.waiting = w ++ es.filterMap Event.joins) (hs : r.served = some x)
  | waits {held rest ahead behind} (hes : es = held ++ .again :: rest)
      (hheld : ∀ e ∈ held, e.joins.isSome) (hw : r.waiting = ahead ++ x :: behind)
      (hout : out ++ ahead = w ++ held.filterMap Event.joins)
      (hx : x ∉ ahead ++ behind) (hs : r.served ≠ some x)
  | gone (hw : x ∉ r.waiting) (hs : r.served ≠ some x)

variable {w : List α} {x : α} {es : List (Event α)} {out : List α} {r r' : Rotation α}
  {e : Event α}

theorem mem_joins : x ∈ es.filterMap Event.joins ↔ .join x ∈ es := by
  rw [List.mem_filterMap]
  constructor
  · rintro ⟨e, he, hx⟩
    cases e with
    | join y =>
      obtain rfl : y = x := Option.some.inj hx
      exact he
    | take | again | leave => cases hx
  · exact fun h => ⟨_, h, rfl⟩

/-- The item is served: it stays so, goes to the end of the queue or leaves. -/
private theorem Turn.step_of_served (hes : ∀ e ∈ es, e.joins.isSome) (hout : out = [])
    (hw : r.waiting = w ++ es.filterMap Event.joins) (hs : r.served = some x)
    (hx : x ∉ r.waiting) (hstep : Steps r e r') :
    Turn w x (es ++ [e]) (out ++ r.taken e) r' := by
  subst hout
  cases hstep with
  | join y =>
    refine .served ?_ rfl ?_ hs
    · intro e' he'
      rcases List.mem_append.mp he' with he' | he'
      · exact hes e' he'
      · rw [List.mem_singleton.mp he']
        rfl
    · simp [hw, List.filterMap_append, Event.joins]
  | take _ hnone =>
    rw [hs] at hnone
    cases hnone
  | again hy =>
    obtain rfl := Option.some.inj (hs.symm.trans hy)
    exact .waits rfl hes rfl hw (by simpa using hx) (by simp)
  | leave => exact .gone hx (by simp)

/-- The item waits: it comes nearer to the front with each item that is taken. -/
private theorem Turn.step_of_waits {held rest : List (Event α)} {ahead behind : List α}
    (hes : es = held ++ .again :: rest) (hheld : ∀ e ∈ held, e.joins.isSome)
    (hw : r.waiting = ahead ++ x :: behind)
    (hout : out ++ ahead = w ++ held.filterMap Event.joins) (hx : x ∉ ahead ++ behind)
    (hs : r.served ≠ some x) (he : e ≠ .join x) (htake : x ∉ r.taken e)
    (hstep : Steps r e r') : Turn w x (es ++ [e]) (out ++ r.taken e) r' := by
  have hes' : es ++ [e] = held ++ .again :: (rest ++ [e]) := by simp [hes]
  cases hstep with
  | join y =>
    have hy : x ≠ y := fun h => he (h ▸ rfl)
    have hw' : r.waiting ++ [y] = ahead ++ x :: (behind ++ [y]) := by simp [hw]
    refine .waits hes' hheld hw' (by simpa [taken] using hout) ?_ hs
    simpa [hy] using hx
  | @take y v hy =>
    have hne : x ≠ y := by simpa [taken, hy] using htake
    -- `x` is not taken, so another item is ahead of it
    cases ahead with
    | nil =>
      rw [hw] at hy
      exact absurd (List.cons.inj hy).1 hne
    | cons z ahead =>
      rw [hw] at hy
      obtain ⟨rfl, rfl⟩ := List.cons.inj hy
      refine .waits hes' hheld rfl (by simpa [taken, hw] using hout) ?_ ?_
      · exact fun hmem => hx (List.mem_cons_of_mem _ hmem)
      · exact fun h => hne (Option.some.inj h).symm
  | @again y hy =>
    have hne : x ≠ y := fun h => hs (h ▸ hy)
    have hw' : r.waiting ++ [y] = ahead ++ x :: (behind ++ [y]) := by simp [hw]
    refine .waits hes' hheld hw' (by simpa [taken] using hout) ?_ (by simp)
    simpa [hne] using hx
  | leave => exact .waits hes' hheld hw (by simpa [taken] using hout) hx (by simp)

/-- An item that has left does not come back. -/
private theorem Turn.step_of_gone (hw : x ∉ r.waiting) (hs : r.served ≠ some x)
    (he : e ≠ .join x) (hstep : Steps r e r') : Turn w x es out r' := by
  cases hstep with
  | join y =>
    have hy : x ≠ y := fun h => he (h ▸ rfl)
    exact .gone (by simpa [hy] using hw) hs
  | @take y v hy =>
    rw [hy] at hw
    obtain ⟨hne, hv⟩ := not_or.mp (mt List.mem_cons.mpr hw)
    exact .gone hv fun h => hne (Option.some.inj h).symm
  | @again y hy =>
    have hne : x ≠ y := fun h => hs (h ▸ hy)
    exact .gone (by simpa [hne] using hw) (by simp)
  | leave => exact .gone hw (by simp)

/-- A step that does not take the item. -/
theorem Turn.step (h : Turn w x es out r) (hw : x ∉ w) (hes : .join x ∉ es) (he : e ≠ .join x)
    (htake : x ∉ r.taken e) (hstep : Rotation.step r e = some r') :
    Turn w x (es ++ [e]) (out ++ r.taken e) r' := by
  have hstep := step_cases hstep
  cases h with
  | served hjoin hout hwait hs =>
    refine step_of_served hjoin hout hwait hs ?_ hstep
    rw [hwait, List.mem_append, mem_joins]
    exact not_or.mpr ⟨hw, hes⟩
  | waits hes hheld hwait hout hx hs =>
    exact step_of_waits hes hheld hwait hout hx hs he htake hstep
  | gone hwait hs => exact step_of_gone hwait hs he hstep

theorem Turn.run (hw : x ∉ w) (hes : .join x ∉ es)
    (hrun : Rotation.step.run ⟨w, some x⟩ es = some r)
    (htake : x ∉ Rotation.step.observe taken ⟨w, some x⟩ es) :
    Turn w x es (Rotation.step.observe taken ⟨w, some x⟩ es) r := by
  -- where `x` is can be said only as long as it has not been taken again
  refine (Machine.run_history (P := fun e => e ≠ .join x) (I := fun bs r =>
    Rotation.step.run ⟨w, some x⟩ bs = some r ∧ .join x ∉ bs ∧
      (x ∉ Rotation.step.observe taken ⟨w, some x⟩ bs →
        Turn w x bs (Rotation.step.observe taken ⟨w, some x⟩ bs) r))
    ?_ ⟨rfl, List.not_mem_nil, fun _ => .served (by simp) rfl (by simp) rfl⟩ ?_ hrun).2.2 htake
  · rintro bs u e v ⟨hbs, hjoin, hturn⟩ he hstep
    rw [Machine.observe_concat hbs]
    refine ⟨Machine.run_concat_eq_some.mpr ⟨u, hbs, hstep⟩, ?_, ?_⟩
    · simpa [hjoin] using he.symm
    · intro hout
      obtain ⟨hbefore, hnow⟩ := not_or.mp (mt List.mem_append.mpr hout)
      exact (hturn hbefore).step hw hjoin he hnow hstep
  · rintro e he rfl
    exact hes he

/-- Those who join wait behind the others. -/
theorem run_joins (hes : ∀ e ∈ es, e.joins.isSome) (hrun : Rotation.step.run r es = some r') :
    r' = ⟨r.waiting ++ es.filterMap Event.joins, r.served⟩ := by
  induction es generalizing r with
  | nil =>
    obtain rfl : r = r' := by simpa using hrun
    simp
  | cons e es ih =>
    obtain ⟨he, htail⟩ := List.forall_mem_cons.mp hes
    obtain ⟨u, hu, hrun⟩ := Machine.run_cons_eq_some.mp hrun
    cases step_cases hu with
    | join x =>
      rw [ih htail hrun]
      simp [Event.joins]
    | take | again | leave => cases he

/-- Between two turns of an item those are taken that waited when it was taken, and behind them
those that joined while it was served, in this order. The item went back to the end of the queue
in between. -/
theorem taken_between {behind : List α} (hw : x ∉ w) (hes : .join x ∉ es)
    (hrun : Rotation.step.run ⟨w, some x⟩ es = some ⟨x :: behind, none⟩)
    (htake : x ∉ Rotation.step.observe taken ⟨w, some x⟩ es) :
    ∃ held rest, es = held ++ .again :: rest ∧ (∀ e ∈ held, e.joins.isSome) ∧
      Rotation.step.observe taken ⟨w, some x⟩ es = w ++ held.filterMap Event.joins := by
  cases Turn.run hw hes hrun htake with
  | served _ _ _ hs => cases hs
  | @waits held rest ahead _ hes hheld hwait hout hx =>
    -- `x` heads the queue, so all that were ahead of it have been taken
    cases ahead with
    | nil => exact ⟨held, rest, hes, hheld, by rwa [List.append_nil] at hout⟩
    | cons y ahead =>
      obtain ⟨rfl, -⟩ := List.cons.inj hwait
      exact absurd (List.mem_cons_self ..) hx
  | gone hwait => exact absurd (List.mem_cons_self ..) hwait

end Rotation
