import FHT.Server.Http

/-!
# From a request target to a handler

Both servers split the target with `parseUrl` and look the location up with the same loop: it
tries prefixes from the longest to the shortest, at the end of the location and around each
slash. `at` and `substr` throw outside the string, which is `none` here.

## Main results

- `parseUrl_location` — the location is what stands before the first `?`
- `route_eq` — the loop selects the longest registered prefix, and overwrites `func` unless
  the location is empty
-/

namespace FHT.Server

open StdString

structure ParseUri where
  location : Str
  uriParam : StdMap Str Str

/-- The loop of `parseUrl` over what follows the `?`. -/
def parseQuery (getParam : StdMap Str Str) (key value : Str) : Str → StdMap Str Str
  | [] => getParam.emplace key value
  | c :: rest =>
    if c = '&' then parseQuery (getParam.emplace key value) [] [] rest
    else if c = '=' ∧ key = [] then parseQuery getParam value key rest
    else parseQuery getParam key (value ++ [c]) rest

def parseUrl (request : Str) : Option ParseUri :=
  match find ['?'] request with
  | none => some ⟨request, ∅⟩
  | some f =>
    if f < request.length then do
      let requestGet ← substr request (some (f + 1)) none
      let location ← substr request (some 0) (some f)
      return ⟨location, parseQuery ∅ [] [] requestGet⟩
    else some ⟨request, ∅⟩

/-- The part of a target before its first `?`. -/
def location (request : Str) : Str := request.take (request.idxOf '?')

theorem parseUrl_location (request : Str) :
    ∃ uri, parseUrl request = some uri ∧ uri.location = location request := by
  unfold parseUrl location
  rw [find_singleton]
  by_cases hq : '?' ∈ request
  · have hlt : request.idxOf '?' < request.length := List.idxOf_lt_length_of_mem hq
    have hle : request.idxOf '?' + 1 ≤ request.length := hlt
    simp [hq, hlt, substr_to_end request hle, substr_of_le request (Nat.zero_le _)]
  · have hend : request.idxOf '?' = request.length := List.idxOf_eq_length hq
    simp [hq]

/-- The parameters in the query of a target, which is what follows its first `?`. -/
def queryParams (request : Str) : StdMap Str Str :=
  if '?' ∈ request then parseQuery ∅ [] [] (request.drop (request.idxOf '?' + 1)) else ∅

theorem parseUrl_uriParam {request : Str} {uri : ParseUri} (h : parseUrl request = some uri) :
    uri.uriParam = queryParams request := by
  unfold parseUrl at h
  rw [find_singleton] at h
  unfold queryParams
  by_cases hq : '?' ∈ request
  · have hlt : request.idxOf '?' < request.length := List.idxOf_lt_length_of_mem hq
    simp [hq, hlt, substr_to_end request (Nat.succ_le_of_lt hlt),
      substr_of_le request (Nat.zero_le _)] at h
    rw [if_pos hq, ← h]
  · simp [hq] at h
    rw [if_neg hq, ← h]

def webSocket (str : Str) : Str := "ws".toList ++ str

/-- The key of a handler for a prefix of the location. -/
def handlerKey (isWS : Bool) (path : Str) : Str := if isWS then webSocket path else path

section Loop

variable {F : Type} (H : StdMap Str F) (isWS : Bool)

/-- `loc.at(i) == '/' || loc.at(i - 1) == '/'`. -/
def atSlash (loc : Str) (i : Nat) : Option Bool :=
  loc[i]?.bind fun c => if c = '/' then some true else loc[i - 1]?.map (· = '/')

/-- The routing loop at counter `i`, with `func` and `nextLocation` as they are so far. -/
def routeLoop (loc : Str) : Nat → Option F → Str → Option (Option F × Str)
  | 0, func, nextLocation => some (func, nextLocation)
  | i + 1, func, nextLocation => do
    let slash ← atSlash loc (i + 1)
    if slash then
      let path ← substr loc (some 0) (some (i + 1))
      match H[handlerKey isWS path]? with
      | some f =>
        let rest ← substr loc (some (i + 1)) (some (loc.length - (i + 2)))
        some (some f, nextLocation ++ rest)
      | none => routeLoop loc i none nextLocation
    else routeLoop loc i func nextLocation

/-- The loop over a location, to which the servers append a slash. -/
def route (L : Str) (func : Option F) : Option (Option F × Str) :=
  routeLoop H isWS (L ++ ['/']) ((L ++ ['/']).length - 1) func ['.']

/-- A prefix of length `i` ends at the end of `L`, just before a slash or just after one. -/
def IsCut (L : Str) (i : Nat) : Prop :=
  i = L.length ∨ L[i]? = some '/' ∨ L[i - 1]? = some '/'

instance (L : Str) (i : Nat) : Decidable (IsCut L i) :=
  inferInstanceAs (Decidable (_ ∨ _ ∨ _))

/-- A registered key is reached by the location `L`. -/
def Reached (L : Str) : Prop :=
  ∃ i, 0 < i ∧ i ≤ L.length ∧ IsCut L i ∧ handlerKey isWS (L.take i) ∈ H

/-- The handler of the longest registered prefix of length at most `i`, with that length. -/
def select (L : Str) : Nat → Option (F × Nat)
  | 0 => none
  | i + 1 =>
    if IsCut L (i + 1) then
      match H[handlerKey isWS (L.take (i + 1))]? with
      | some f => some (f, i + 1)
      | none => select L i
    else select L i

/-- `func` and `nextLocation` after the loop has selected. -/
def routed (L : Str) : Option (F × Nat) → Option F × Str
  | none => (none, ['.'])
  | some (f, i) => (some f, '.' :: L.drop i)

theorem select_eq_none_iff (L : Str) (i : Nat) (hi : i ≤ L.length) :
    select H isWS L i = none ↔
      ∀ j, 0 < j → j ≤ i → IsCut L j → handlerKey isWS (L.take j) ∉ H := by
  induction i with
  | zero => exact ⟨fun _ j hj hj' => by omega, fun _ => rfl⟩
  | succ i ih =>
    have ih := ih (by omega)
    have hlast : (∀ j, 0 < j → j ≤ i + 1 → IsCut L j → handlerKey isWS (L.take j) ∉ H) ↔
        (IsCut L (i + 1) → handlerKey isWS (L.take (i + 1)) ∉ H) ∧
          ∀ j, 0 < j → j ≤ i → IsCut L j → handlerKey isWS (L.take j) ∉ H := by
      constructor
      · exact fun h => ⟨h (i + 1) (by omega) (Nat.le_refl _), fun j hj hle => h j hj (by omega)⟩
      · rintro ⟨htop, hrest⟩ j hj hle
        rcases Nat.lt_or_eq_of_le hle with hlt | rfl
        · exact hrest j hj (by omega)
        · exact htop
    rw [hlast, ← ih, select]
    by_cases hc : IsCut L (i + 1)
    · rw [if_pos hc]
      cases hf : H[handlerKey isWS (L.take (i + 1))]? with
      | some f =>
        have hmem : handlerKey isWS (L.take (i + 1)) ∈ H := by
          rw [StdMap.mem_iff_getElem?_ne_none, hf]
          simp
        simp [hc, hmem]
      | none =>
        have hmem : handlerKey isWS (L.take (i + 1)) ∉ H := by
          rw [StdMap.mem_iff_getElem?_ne_none, hf]
          simp
        simp [hmem]
    · simp [hc]

theorem select_eq_none_iff_not_reached (L : Str) :
    select H isWS L L.length = none ↔ ¬ Reached H isWS L := by
  rw [select_eq_none_iff H isWS L _ (Nat.le_refl _)]
  constructor
  · rintro h ⟨i, hi, hle, hc, hm⟩
    exact h i hi hle hc hm
  · intro h i hi hle hc hm
    exact h ⟨i, hi, hle, hc, hm⟩

theorem reached_of_select {L : Str} {p : F × Nat} (hs : select H isWS L L.length = some p) :
    Reached H isWS L := by
  by_contra hnot
  rw [(select_eq_none_iff_not_reached H isWS L).mpr hnot] at hs
  cases hs

/-- The test of the loop, `at(i)` or `at(i - 1)` a slash, finds the cuts of the location. -/
theorem atSlash_eq_isCut (L : Str) {i : Nat} (hi : i + 1 ≤ L.length) :
    atSlash (L ++ ['/']) (i + 1) = some (decide (IsCut L (i + 1))) := by
  rw [atSlash, Nat.add_sub_cancel]
  have hlt : i < L.length := hi
  have hprev : (L ++ ['/'])[i]? = some L[i] := by
    rw [List.getElem?_append_left hlt, List.getElem?_eq_getElem hlt]
  rcases Nat.lt_or_eq_of_le hi with hin | hend
  · have hthis : (L ++ ['/'])[i + 1]? = some L[i + 1] := by
      rw [List.getElem?_append_left hin, List.getElem?_eq_getElem hin]
    rw [hthis, hprev, Option.bind_some, Option.map_some]
    by_cases hc : L[i + 1] = '/'
    · simp [IsCut, hc, List.getElem?_eq_getElem hin]
    · have hne : i + 1 ≠ L.length := by omega
      simp [IsCut, hc, hne, List.getElem?_eq_getElem hin, List.getElem?_eq_getElem hlt]
  · have hthis : (L ++ ['/'])[i + 1]? = some '/' := by
      rw [hend, List.getElem?_append_right (Nat.le_refl _)]
      simp
    rw [hthis]
    simp [IsCut, hend]

/-- One pass of the loop. -/
theorem routeLoop_succ (L : Str) {i : Nat} (hi : i + 1 ≤ L.length) (func : Option F)
    (nextLocation : Str) :
    routeLoop H isWS (L ++ ['/']) (i + 1) func nextLocation =
      if IsCut L (i + 1) then
        match H[handlerKey isWS (L.take (i + 1))]? with
        | some f => some (some f, nextLocation ++ L.drop (i + 1))
        | none => routeLoop H isWS (L ++ ['/']) i none nextLocation
      else routeLoop H isWS (L ++ ['/']) i func nextLocation := by
  have hpath : substr (L ++ ['/']) (some 0) (some (i + 1)) = some (L.take (i + 1)) := by
    rw [substr_of_le _ (Nat.zero_le _), List.drop_zero, List.take_append_of_le_length hi]
  have hrest : substr (L ++ ['/']) (some (i + 1)) (some ((L ++ ['/']).length - (i + 2))) =
      some (L.drop (i + 1)) := by
    rw [substr_of_le _ (by simp; omega), List.drop_append_of_le_length hi]
    have hlen : (L ++ ['/']).length - (i + 2) = (L.drop (i + 1)).length := by
      simp only [List.length_append, List.length_drop, List.length_singleton]
      omega
    rw [hlen, List.take_left']
    rfl
  rw [routeLoop, atSlash_eq_isCut L hi, Option.bind_eq_bind, Option.bind_some]
  by_cases hcut : IsCut L (i + 1)
  · simp only [hcut, decide_true, Option.bind_eq_bind, Option.bind_some, if_true, hpath, hrest]
  · simp [hcut]

/-- From a counter at which `func` is empty the loop selects. -/
theorem routeLoop_none (L : Str) (i : Nat) (hi : i ≤ L.length) :
    routeLoop H isWS (L ++ ['/']) i none ['.'] = some (routed L (select H isWS L i)) := by
  induction i with
  | zero => rfl
  | succ i ih =>
    rw [routeLoop_succ H isWS L hi, select, ih (by omega)]
    split
    · cases H[handlerKey isWS (L.take (i + 1))]? <;> rfl
    · rfl

/-- The loop selects. For a location that is not empty it starts at a cut and assigns `func`, so
that what was left there does not matter; for the empty location it does not run. -/
theorem route_eq (L : Str) (func : Option F) :
    route H isWS L func = some
      (if L = [] then (func, ['.']) else routed L (select H isWS L L.length)) := by
  by_cases hL : L = []
  · subst hL
    rfl
  rw [if_neg hL]
  obtain ⟨n, hn⟩ := Nat.exists_eq_succ_of_ne_zero (by simpa using hL : L.length ≠ 0)
  have hlen : (L ++ ['/']).length - 1 = n + 1 := by simp [hn]
  have hcut : IsCut L (n + 1) := .inl hn.symm
  rw [route, hlen, routeLoop_succ H isWS L (Nat.le_of_eq hn.symm), if_pos hcut, hn, select,
    if_pos hcut, routeLoop_none H isWS L n (by omega)]
  cases H[handlerKey isWS (L.take (n + 1))]? <;> rfl

/-- Nothing is reached by the empty location. -/
theorem not_reached_nil : ¬ Reached H isWS [] := by
  rintro ⟨i, hi, hle, _⟩
  exact absurd hle (by simp; omega)

end Loop

end FHT.Server
