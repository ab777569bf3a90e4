import FHT.Server.Handling
import Mathlib.Order.Bounds.Defs

/-!
# The handler that a request is dispatched to

The routing loop selects the registered key that is the longest segment prefix of the location.
A request on a new connection is dispatched to its handler, and answered with 404 if there is
none.

## Main results

- `select_eq_some_iff` — what the loop selects is the greatest match
- `route_selects_longest` — the loop and the first request of either server
-/

namespace FHT.Server

variable {ρ F A : Type}

section Select

/-- The key of a segment prefix: an upgrade looks it up behind `ws`. -/
def segmentKey (isWS : Bool) (path : Str) : Str := (if isWS then ['w', 's'] else []) ++ path

theorem handlerKey_eq (isWS : Bool) (path : Str) : handlerKey isWS path = segmentKey isWS path := by
  cases isWS <;> rfl

variable (H : StdMap Str F) (isWS : Bool) (L : Str)

/-- The location ends at `i` or has a slash around it, and the key of what stands before it is
registered. -/
def Matches (i : Nat) : Prop :=
  0 < i ∧ i ≤ L.length ∧ (i = L.length ∨ L[i]? = some '/' ∨ L[i - 1]? = some '/') ∧
    segmentKey isWS (L.take i) ∈ H

/-- The longest match, with the handler registered for it. -/
def Longest (f : F) (i : Nat) : Prop :=
  IsGreatest {j | Matches H isWS L j} i ∧ H[segmentKey isWS (L.take i)]? = some f

variable {H isWS L}

/-- The counter goes down, so the first match that it meets is the greatest. -/
theorem select_eq_some_iff {n : Nat} (hn : n ≤ L.length) {f : F} {i : Nat} :
    select H isWS L n = some (f, i) ↔
      IsGreatest {j | Matches H isWS L j ∧ j ≤ n} i ∧
        H[segmentKey isWS (L.take i)]? = some f := by
  induction n with
  | zero =>
    constructor
    · intro h
      cases h
    · rintro ⟨⟨⟨⟨hpos, _⟩, hle⟩, _⟩, _⟩
      omega
  | succ n ih =>
    have ih := ih (by omega)
    -- without a match at the counter, the candidates are those below it
    have hskip (hno : ¬ Matches H isWS L (n + 1)) :
        {j | Matches H isWS L j ∧ j ≤ n + 1} = {j | Matches H isWS L j ∧ j ≤ n} := by
      ext j
      constructor
      · rintro ⟨hm, hle⟩
        have hne : j ≠ n + 1 := fun heq => hno (heq ▸ hm)
        exact ⟨hm, by omega⟩
      · exact fun ⟨hm, hle⟩ => ⟨hm, by omega⟩
    rw [select, handlerKey_eq]
    by_cases hcut : IsCut L (n + 1)
    · rw [if_pos hcut]
      cases hf : H[segmentKey isWS (L.take (n + 1))]? with
      | none =>
        have hno : ¬ Matches H isWS L (n + 1) := fun hm =>
          (StdMap.mem_iff_getElem?_ne_none H _).mp hm.2.2.2 hf
        rw [hskip hno]
        exact ih
      | some g =>
        have hm : Matches H isWS L (n + 1) :=
          ⟨by omega, hn, hcut, by rw [StdMap.mem_iff_getElem?_ne_none, hf]; simp⟩
        have htop : IsGreatest {j | Matches H isWS L j ∧ j ≤ n + 1} (n + 1) :=
          ⟨⟨hm, Nat.le_refl _⟩, fun j hj => hj.2⟩
        constructor
        · intro h
          obtain ⟨rfl, rfl⟩ : g = f ∧ n + 1 = i := by simpa using h
          exact ⟨htop, hf⟩
        · rintro ⟨hi, hget⟩
          obtain rfl : i = n + 1 := Nat.le_antisymm (htop.2 hi.1) (hi.2 htop.1)
          rw [hf] at hget
          rw [Option.some.inj hget]
    · rw [if_neg hcut, hskip fun hm => hcut hm.2.2.1]
      exact ih

theorem select_length_eq_some_iff {f : F} {i : Nat} :
    select H isWS L L.length = some (f, i) ↔ Longest H isWS L f i := by
  have hall : {j | Matches H isWS L j ∧ j ≤ L.length} = {j | Matches H isWS L j} := by
    ext j
    exact ⟨fun h => h.1, fun h => ⟨h, h.2.1⟩⟩
  rw [select_eq_some_iff (Nat.le_refl _), hall, Longest]

/-- Where nothing was left by earlier requests, the loop selects for the empty location too. -/
theorem route_none (L : Str) :
    route H isWS L none = some (routed L (select H isWS L L.length)) := by
  rw [route_eq]
  by_cases hL : L = []
  · subst hL
    rfl
  · rw [if_neg hL]

theorem route_none_eq_some_iff {L : Str} {f : F} {nextLocation : Str} :
    route H isWS L none = some (some f, nextLocation) ↔
      ∃ i, Longest H isWS L f i ∧ nextLocation = '.' :: L.drop i := by
  rw [route_none, Option.some.injEq]
  constructor
  · intro h
    cases hs : select H isWS L L.length with
    | none => simp [hs, routed] at h
    | some p =>
      obtain ⟨rfl, rfl⟩ : p.1 = f ∧ '.' :: L.drop p.2 = nextLocation := by
        simpa [hs, routed] using h
      exact ⟨p.2, select_length_eq_some_iff.mp hs, rfl⟩
  · rintro ⟨i, hi, rfl⟩
    rw [select_length_eq_some_iff.mpr hi, routed]

theorem reached_iff_exists_matches {L : Str} :
    Reached H isWS L ↔ ∃ i, Matches H isWS L i := by
  simp only [Reached, handlerKey_eq]
  exact Iff.rfl

theorem route_none_eq_none_iff {L : Str} :
    (∃ nextLocation, route H isWS L none = some (none, nextLocation)) ↔
      ¬ ∃ i, Matches H isWS L i := by
  rw [← reached_iff_exists_matches, ← select_eq_none_iff_not_reached, route_none]
  cases hs : select H isWS L L.length with
  | none => simp [routed]
  | some p => simp [routed]

end Select

/-- The routing of a request where nothing was left before. -/
theorem routing_none (lessenAll : Bool) (a : Arrival F A) :
    routing lessenAll none a = routed (ownLocation lessenAll a.req.target)
      (select a.H a.req.isUpgrade (ownLocation lessenAll a.req.target)
        (ownLocation lessenAll a.req.target).length) := by
  have h := route_routing lessenAll none a
  rw [route_none] at h
  exact (Option.some.inj h).symm

theorem routing_none_of_longest {lessenAll : Bool} {a : Arrival F A} {f : F} {i : Nat}
    (hi : Longest a.H a.req.isUpgrade (ownLocation lessenAll a.req.target) f i) :
    routing lessenAll none a = (some f, '.' :: (ownLocation lessenAll a.req.target).drop i) := by
  rw [routing_none, select_length_eq_some_iff.mpr hi, routed]

/-- A first request is answered with 404 exactly if nothing matches. -/
theorem events_eq_notFound_iff (http : Http ρ) (lessenAll : Bool) {a : Arrival F A}
    {info : Endpoint} (hm : a.req.method.dispatched) (hinfo : a.remote = some info) :
    (handling http lessenAll .empty none a).events http a.req =
        [.response (http.notFound a.req "Unknown HTTP handler".toList)] ↔
      ¬ ∃ i, Matches a.H a.req.isUpgrade (ownLocation lessenAll a.req.target) i := by
  rw [← reached_iff_exists_matches, ← select_eq_none_iff_not_reached]
  cases hs : select a.H a.req.isUpgrade (ownLocation lessenAll a.req.target)
      (ownLocation lessenAll a.req.target).length with
  | none =>
    simp [handling, hm, hinfo, routing_none, hs, routed, Handling.events, Handling.called,
      Handling.response]
  | some p =>
    have hrouting := routing_none_of_longest (select_length_eq_some_iff.mp hs)
    simp only [handling, hm, hinfo, hrouting, if_true]
    split
    · simp [Handling.events, Handling.called, Handling.response]
    · simp [Handling.events, Handling.called, Handling.response]

namespace Async.HttpServer

/-- An upgrade request for which a handler is found is accepted for it. -/
theorem onRead_upgrade (http : Http ρ) (h : HttpServer ρ F A) {a : Arrival F A} {info : Endpoint}
    {f : F} {nextLocation : Str} (hm : a.req.method.dispatched) (hinfo : a.remote = some info)
    (hup : a.req.isUpgrade = true)
    (hrouting : routing h.lessenAll h.func a = (some f, nextLocation)) :
    h.onRead http a =
      { h with
        req := a.req
        buffer := a.rest
        dataReq := h.dataReq.fill a info nextLocation
        func := some f
        ws := true
        pending := .accept } := by
  have hroute := route_routing h.lessenAll h.func a
  rw [hrouting, hup] at hroute
  rw [onRead_eq_dispatch http h hm]
  unfold dispatch
  simp only [hinfo, hroute, hup, if_true]
  rfl

end Async.HttpServer

namespace Coro.Session

theorem onRead_upgrade (http : Http ρ) (s : Session ρ F A) {a : Arrival F A} {info : Endpoint}
    {f : F} {nextLocation : Str} (hm : a.req.method.dispatched) (hinfo : a.remote = some info)
    (hup : a.req.isUpgrade = true)
    (hrouting : routing s.lessenAll none a = (some f, nextLocation)) :
    s.onRead http a =
      { s with
        req := a.req
        buffer := a.rest
        dataReq := DataRequest.empty.fill a info nextLocation
        func := some f
        wsSub := some ⟨false, false⟩
        pending := .accept } := by
  have hroute := route_routing s.lessenAll none a
  rw [hrouting, hup] at hroute
  rw [onRead_eq_dispatch http s hm]
  unfold dispatch
  simp only [hinfo, hroute, hup, if_true]
  rfl

end Coro.Session

/-- The routing loop never throws on a new connection. It selects the handler of the longest match
and leaves what stands behind it; it selects none if there is no match. So does the first request
of either server: it is dispatched to that handler or answered with 404. -/
theorem route_selects_longest (ρ F A : Type) :
    (∀ (H : StdMap Str F) (isWS : Bool) (L : Str),
      route H isWS L none ≠ none ∧
      (∀ f nextLocation, route H isWS L none = some (some f, nextLocation) ↔
        ∃ i, Longest H isWS L f i ∧ nextLocation = '.' :: L.drop i ∧
          L.take i ++ nextLocation.tail = L) ∧
      ((∃ nextLocation, route H isWS L none = some (none, nextLocation)) ↔
        ¬ ∃ i, Matches H isWS L i)) ∧
    ∀ (http : Http ρ) (lessenAll : Bool) (a : Arrival F A) (info : Endpoint),
      a.req.method.dispatched → a.remote = some info →
      let L := ownLocation lessenAll a.req.target
      let h := (Async.HttpServer.init lessenAll).onRead http a
      let s := (Coro.Session.init lessenAll).onRead http a
      (∀ f i, Longest a.H a.req.isUpgrade L f i →
        let d := DataRequest.empty.fill a info ('.' :: L.drop i)
        if a.req.isUpgrade then
          (h.pending = .accept ∧ h.func = some f ∧ h.dataReq = d) ∧
            s.pending = .accept ∧ s.func = some f ∧ s.dataReq = d
        else
          let answer := (replyAnswer http a.req a.reply).toOption.toList.map .response
          h.log = .handler f d :: answer ∧ s.log = .handler f d :: answer) ∧
      (h.log = [.response (http.notFound a.req "Unknown HTTP handler".toList)] ↔
        ¬ ∃ i, Matches a.H a.req.isUpgrade L i) ∧
      (s.log = [.response (http.notFound a.req "Unknown HTTP handler".toList)] ↔
        ¬ ∃ i, Matches a.H a.req.isUpgrade L i) := by
  refine ⟨fun H isWS L => ⟨?_, ?_, route_none_eq_none_iff⟩, ?_⟩
  · rw [route_none]
    simp
  · intro f nextLocation
    rw [route_none_eq_some_iff]
    constructor
    · rintro ⟨i, hi, rfl⟩
      exact ⟨i, hi, rfl, List.take_append_drop i L⟩
    · rintro ⟨i, hi, rfl, _⟩
      exact ⟨i, hi, rfl⟩
  intro http lessenAll a info hm hinfo L h s
  have hlog : h.log = (handling http lessenAll .empty none a).events http a.req :=
    (Async.HttpServer.onRead_follows http (Async.HttpServer.init lessenAll) a).1
  have slog : s.log = (handling http lessenAll .empty none a).events http a.req :=
    (Coro.Session.onRead_follows http (Coro.Session.init lessenAll) a).1
  constructor
  · intro f i hi d
    have hrouting := routing_none_of_longest hi
    by_cases hup : a.req.isUpgrade = true
    · rw [if_pos hup]
      have hread : h = _ :=
        Async.HttpServer.onRead_upgrade http (.init lessenAll) hm hinfo hup hrouting
      have sread : s = _ :=
        Coro.Session.onRead_upgrade http (.init lessenAll) hm hinfo hup hrouting
      rw [hread, sread]
      exact ⟨⟨rfl, rfl, rfl⟩, rfl, rfl, rfl⟩
    · have hcall : handling http lessenAll .empty none a = .call f d a.reply := by
        simp [handling, hm, hinfo, hrouting, hup, d, L]
      rw [if_neg hup, hlog, slog, hcall]
      exact ⟨rfl, rfl⟩
  · rw [hlog, slog]
    exact ⟨events_eq_notFound_iff http lessenAll hm hinfo,
      events_eq_notFound_iff http lessenAll hm hinfo⟩

/-- An upgrade request below the WebSocket handler of `/a`. -/
def upgradeBelowA : Arrival Nat Unit :=
  { upgradeA with req := { upgradeA.req with target := "/a/b".toList } }

/-- With `/a` registered, `/a/b` is dispatched to it with `./b` left over, and `/ab` is not. With
`ws/a` registered, an upgrade for `/a/b` is accepted for it, and no plain request reaches it. -/
theorem route_selects_longest_a :
    (∃ i, Longest (getWith "/a/b".toList []).H false "/a/b".toList 0 i) ∧
      ((Async.HttpServer.init false).onRead Message.http (getWith "/ab".toList [])).log =
        [.response (Message.http.notFound (getWith "/ab".toList []).req
          "Unknown HTTP handler".toList)] ∧
      (∃ i, Longest upgradeBelowA.H true "/a/b".toList 0 i) ∧
      ((Async.HttpServer.init false).onRead Message.http upgradeBelowA).pending = .accept ∧
      ((Coro.Session.init false).onRead Message.http upgradeBelowA).pending = .accept ∧
      ¬ ∃ i, Matches upgradeBelowA.H false "/a/b".toList i := by
  obtain ⟨hroute, hserver⟩ := route_selects_longest Message Nat Unit
  obtain ⟨i, hi, _⟩ := ((hroute (getWith "/a/b".toList []).H false "/a/b".toList).2.1 0
    "./b".toList).mp (by decide)
  have hno : ¬ ∃ i, Matches (getWith "/ab".toList []).H false "/ab".toList i :=
    (hroute _ _ _).2.2.mp ⟨['.'], by decide⟩
  obtain ⟨j, hj, _⟩ := ((hroute upgradeBelowA.H true "/a/b".toList).2.1 0 "./b".toList).mp
    (by decide)
  obtain ⟨⟨hasync, _⟩, hcoro, _⟩ := (hserver Message.http false upgradeBelowA _ rfl rfl).1 0 j hj
  have hplain : ¬ ∃ i, Matches upgradeBelowA.H false "/a/b".toList i :=
    (hroute _ _ _).2.2.mp ⟨['.'], by decide⟩
  exact ⟨⟨i, hi⟩, (hserver Message.http false (getWith "/ab".toList []) _ rfl rfl).2.1.mpr hno,
    ⟨j, hj⟩, hasync, hcoro, hplain⟩

end FHT.Server
