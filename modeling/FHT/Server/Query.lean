import FHT.Server.Routing

/-!
# The parameters of a request target

`parseUrl` reads the query of a target with one loop over its characters, which keeps a key and a
value. It amounts to a split at every `&`, and of each segment at the first `=` that is not at
its start. A segment without such a `=` is read as a value, under the empty key.

## Main results

- `parseUrl_splits` — the loop is the split
- `namesKept_iff` — when no name of a query is lost
-/

namespace FHT.Server

open StdString

/-- What a segment of the query is read as: a key and a value. -/
def segmentPair (segment : Str) : Str × Str :=
  let rest := segment.dropWhile (· = '=')
  if '=' ∈ rest then (rest.take (rest.idxOf '='), rest.drop (rest.idxOf '=' + 1))
  else ([], rest)

/-- The split of a target. -/
def splitUrl (t : Str) : ParseUri where
  location := location t
  uriParam :=
    if '?' ∈ t then
      StdMap.emplaceAll ∅ (((t.drop (t.idxOf '?' + 1)).splitOn '&').map segmentPair)
    else ∅

/-- The loop takes a character of a segment into its key and value. -/
def feed (acc : Str × Str) (c : Char) : Str × Str :=
  if c = '=' ∧ acc.1 = [] then (acc.2, acc.1) else (acc.1, acc.2 ++ [c])

/-- The loop inserts a pair for each segment; the first one continues the key and value that the
loop holds. -/
theorem parseQuery_eq (rest : Str) (m : StdMap Str Str) (key value : Str) :
    ∃ segment segments, rest.splitOn '&' = segment :: segments ∧
      parseQuery m key value rest = m.emplaceAll
        (segment.foldl feed (key, value) :: segments.map (List.foldl feed ([], []))) := by
  induction rest generalizing m key value with
  | nil => exact ⟨[], [], rfl, rfl⟩
  | cons c rest ih =>
    rw [parseQuery, List.splitOn_cons_eq_if_modifyHead]
    by_cases hc : c = '&'
    · obtain ⟨segment, segments, hsplit, hparse⟩ := ih (m.emplace key value) [] []
      refine ⟨[], segment :: segments, ?_, ?_⟩
      · rw [if_pos (by simp [hc]), hsplit]
      · rw [if_pos hc, hparse]
        rfl
    · rw [if_neg hc, if_neg (by simp [hc])]
      by_cases heq : c = '=' ∧ key = []
      · obtain ⟨segment, segments, hsplit, hparse⟩ := ih m value key
        refine ⟨c :: segment, segments, by rw [hsplit]; rfl, ?_⟩
        rw [if_pos heq, hparse, List.foldl_cons, feed, if_pos heq]
      · obtain ⟨segment, segments, hsplit, hparse⟩ := ih m key (value ++ [c])
        refine ⟨c :: segment, segments, by rw [hsplit]; rfl, ?_⟩
        rw [if_neg heq, hparse, List.foldl_cons, feed, if_neg heq]

/-- Once there is a key, everything belongs to the value. -/
theorem foldl_feed_of_key {key : Str} (hkey : key ≠ []) (value s : Str) :
    s.foldl feed (key, value) = (key, value ++ s) := by
  induction s generalizing value with
  | nil => simp
  | cons c s ih =>
    rw [List.foldl_cons, feed, if_neg (fun h => hkey h.2), ih]
    simp

/-- Without a key, what has been read becomes one at the next `=`. -/
theorem foldl_feed_of_value {value : Str} (hvalue : value ≠ []) (s : Str) :
    s.foldl feed ([], value) =
      if '=' ∈ s then (value ++ s.take (s.idxOf '='), s.drop (s.idxOf '=' + 1))
      else ([], value ++ s) := by
  induction s generalizing value with
  | nil => simp
  | cons c s ih =>
    rw [List.foldl_cons, feed]
    by_cases hc : c = '='
    · subst hc
      rw [if_pos ⟨rfl, rfl⟩, foldl_feed_of_key hvalue]
      simp
    · rw [if_neg (fun h => hc h.1), ih (by simp)]
      have hne : ¬ '=' = c := fun h => hc h.symm
      by_cases hs : '=' ∈ s
      · simp [hs, hc]
      · simp [hs, hne]

theorem foldl_feed (s : Str) : s.foldl feed ([], []) = segmentPair s := by
  induction s with
  | nil => rfl
  | cons c s ih =>
    rw [List.foldl_cons, feed]
    by_cases hc : c = '='
    · -- with nothing read yet the swap changes nothing
      subst hc
      rw [if_pos ⟨rfl, rfl⟩, ih]
      simp [segmentPair]
    · rw [if_neg (fun h => hc h.1), List.nil_append, foldl_feed_of_value (List.cons_ne_nil c [])]
      have hne : ¬ '=' = c := fun h => hc h.symm
      by_cases hs : '=' ∈ s
      · simp [segmentPair, hs, hc]
      · simp [segmentPair, hs, hc, hne]

theorem parseQuery_empty (rest : Str) :
    parseQuery ∅ [] [] rest = StdMap.emplaceAll ∅ ((rest.splitOn '&').map segmentPair) := by
  obtain ⟨segment, segments, hsplit, hparse⟩ := parseQuery_eq rest ∅ [] []
  have hfeed : List.foldl feed ([], []) = segmentPair := by
    funext s
    exact foldl_feed s
  rw [hparse, hsplit, List.map_cons, ← hfeed]

theorem parseUrl_eq_splitUrl (t : Str) : parseUrl t = some (splitUrl t) := by
  obtain ⟨⟨loc, uriParam⟩, huri, hloc⟩ := parseUrl_location t
  have hparam := parseUrl_uriParam huri
  rw [huri, splitUrl, ← parseQuery_empty, ← hloc]
  exact congrArg (fun m => some (ParseUri.mk loc m)) hparam

/-- A target with a path and a query made of segments. -/
def target (path : Str) (segments : List Str) : Str :=
  path ++ '?' :: ['&'].intercalate segments

theorem parseUrl_target {path : Str} (hpath : '?' ∉ path) {segments : List Str}
    (hne : segments ≠ []) (hsegments : ∀ s ∈ segments, '&' ∉ s) :
    parseUrl (target path segments) =
      some ⟨path, StdMap.emplaceAll ∅ (segments.map segmentPair)⟩ := by
  have hquery : (target path segments).drop ((target path segments).idxOf '?' + 1) =
      ['&'].intercalate segments := by
    rw [← List.drop_drop, target, drop_idxOf_append hpath]
    rfl
  have hmark : '?' ∈ target path segments := by simp [target]
  rw [parseUrl_eq_splitUrl, splitUrl, if_pos hmark, hquery,
    List.splitOn_intercalate '&' hsegments hne, location, target, take_idxOf_append hpath]

/-- A name that is not empty, and has no `=`, comes back as the key. -/
theorem segmentPair_append {name : Str} (hne : name ≠ []) (hname : '=' ∉ name) (value : Str) :
    segmentPair (name ++ '=' :: value) = (name, value) := by
  have hdrop : (name ++ '=' :: value).dropWhile (· = '=') = name ++ '=' :: value := by
    obtain ⟨c, s, rfl⟩ := List.exists_cons_of_ne_nil hne
    have hc : c ≠ '=' := Ne.symm (List.ne_of_not_mem_cons hname)
    simp [hc]
  have hbehind := drop_idxOf_append hname value
  rw [segmentPair, hdrop]
  simp only [List.mem_append, List.mem_cons, true_or, or_true, if_true, ← List.drop_drop,
    take_idxOf_append hname, hbehind]
  rfl

theorem segmentPair_bare {name : Str} (hname : '=' ∉ name) : segmentPair name = ([], name) := by
  have hdrop : name.dropWhile (· = '=') = name := by
    cases name with
    | nil => rfl
    | cons c s =>
      have hc : c ≠ '=' := Ne.symm (List.ne_of_not_mem_cons hname)
      simp [hc]
  rw [segmentPair, hdrop]
  exact if_neg hname

/-- `parseUrl` splits every target. Of a query written as pairs it gives back the path and the
first value of each name. -/
theorem parseUrl_splits :
    (∀ t, parseUrl t = some (splitUrl t)) ∧
    ∀ (path : Str) (pairs : List (Str × Str)), '?' ∉ path → pairs ≠ [] →
      (∀ p ∈ pairs, p.1 ≠ [] ∧ '&' ∉ p.1 ∧ '=' ∉ p.1 ∧ '&' ∉ p.2) →
      ∃ uri, parseUrl (target path (pairs.map fun p => p.1 ++ '=' :: p.2)) = some uri ∧
        uri.location = path ∧ ∀ name, uri.uriParam[name]? = pairs.lookup name := by
  refine ⟨parseUrl_eq_splitUrl, ?_⟩
  intro path pairs hpath hne hpairs
  have hsegments : ∀ s ∈ pairs.map fun p => p.1 ++ '=' :: p.2, '&' ∉ s := by
    intro s hs
    obtain ⟨p, hp, rfl⟩ := List.mem_map.mp hs
    obtain ⟨_, hname, _, hvalue⟩ := hpairs p hp
    simp [hname, hvalue]
  have hback : (pairs.map fun p => p.1 ++ '=' :: p.2).map segmentPair = pairs := by
    rw [List.map_map]
    refine (List.map_congr_left fun p hp => ?_).trans (List.map_id pairs)
    obtain ⟨hname, _, heq, _⟩ := hpairs p hp
    exact segmentPair_append hname heq p.2
  refine ⟨_, parseUrl_target hpath (by simpa using hne) hsegments, rfl, ?_⟩
  intro name
  rw [hback, StdMap.getElem?_emplaceAll]
  simp

theorem parseUrl_splits_ab : ∃ uri, parseUrl "/p?a=1&b=x=y&a=2".toList = some uri ∧
    uri.uriParam["a".toList]? = some "1".toList := by
  obtain ⟨uri, huri, _, hparam⟩ := parseUrl_splits.2 "/p".toList
    [("a".toList, "1".toList), ("b".toList, "x=y".toList), ("a".toList, "2".toList)]
    (by decide) (by decide) (by decide)
  exact ⟨uri, huri, hparam "a".toList⟩

/-- A segment of a query: a name with a value, or a bare name. -/
inductive Segment
  | pair (name value : Str)
  | bare (name : Str)
  deriving DecidableEq

namespace Segment

def name : Segment → Str
  | pair name _ | bare name => name

/-- The value to be had for the name. -/
def value : Segment → Str
  | pair _ value => value
  | bare _ => []

def text : Segment → Str
  | pair name value => name ++ '=' :: value
  | bare name => name

/-- The name is one that can be written, and the value does not end the segment. -/
def Proper (s : Segment) : Prop := s.name ≠ [] ∧ '&' ∉ s.name ∧ '=' ∉ s.name ∧ '&' ∉ s.value

instance (s : Segment) : Decidable s.Proper := inferInstanceAs (Decidable (_ ∧ _))

/-- A bare name is read as a value without a name. -/
def read : Segment → Str × Str
  | pair name value => (name, value)
  | bare name => ([], name)

def pair? : Segment → Option (Str × Str)
  | pair name value => some (name, value)
  | bare _ => none

theorem segmentPair_text {s : Segment} (hs : s.Proper) : segmentPair s.text = s.read := by
  obtain ⟨hne, _, heq, _⟩ := hs
  cases s with
  | pair name value => exact segmentPair_append hne heq value
  | bare name => exact segmentPair_bare heq

theorem Proper.notMem_text {s : Segment} (hs : s.Proper) : '&' ∉ s.text := by
  obtain ⟨_, hname, _, hvalue⟩ := hs
  cases s with
  | pair name value =>
    simp only [text, List.mem_append, List.mem_cons, not_or]
    exact ⟨hname, by decide, hvalue⟩
  | bare name => exact hname

end Segment

/-- The first segment with the name. -/
def firstOf (segments : List Segment) (name : Str) : Option Segment :=
  segments.find? (·.name = name)

/-- The first value that is written behind the name. -/
def firstValue (segments : List Segment) (name : Str) : Option Str :=
  (segments.filterMap Segment.pair?).lookup name

/-- Bare names are not among the keys, so that a name has the first value written behind it. -/
theorem lookup_read {name : Str} (hname : name ≠ []) (segments : List Segment) :
    (segments.map Segment.read).lookup name = firstValue segments name := by
  rw [firstValue]
  induction segments with
  | nil => rfl
  | cons s segments ih =>
    cases s with
    | pair n v =>
      simp only [List.map_cons, Segment.read, List.filterMap_cons, Segment.pair?,
        List.lookup_cons, ih]
    | bare n =>
      have hne : (name == []) = false := by simpa using hname
      simp only [List.map_cons, Segment.read, List.filterMap_cons, Segment.pair?,
        List.lookup_cons, hne, ih]

theorem firstValue_of_firstOf {segments : List Segment} {name n v : Str}
    (h : firstOf segments name = some (.pair n v)) : firstValue segments name = some v := by
  rw [firstValue]
  rw [firstOf] at h
  induction segments with
  | nil => cases h
  | cons s segments ih =>
    by_cases hs : s.name = name
    · rw [List.find?_cons_of_pos (by simpa using hs)] at h
      obtain rfl := Option.some.inj h
      have hn : n = name := hs
      simp [Segment.pair?, hn]
    · rw [List.find?_cons_of_neg (by simpa using hs)] at h
      cases s with
      | pair m w =>
        have hm : (name == m) = false := beq_eq_false_iff_ne.mpr fun heq => hs heq.symm
        simp only [List.filterMap_cons, Segment.pair?, List.lookup_cons, hm, ih h]
      | bare m => exact ih h

/-- Every name of the query is a key, bound to the value of the first segment with that name. -/
def NamesKept (path : Str) (segments : List Segment) : Prop :=
  ∃ uri, parseUrl (target path (segments.map Segment.text)) = some uri ∧
    ∀ s ∈ segments, uri.uriParam[s.name]? = (firstOf segments s.name).map Segment.value

/-- No name is lost exactly if every name that comes first as a bare name has a value written
behind it later, and the first of these is empty. -/
theorem namesKept_iff {path : Str} (hpath : '?' ∉ path) {segments : List Segment}
    (hne : segments ≠ []) (hproper : ∀ s ∈ segments, s.Proper) :
    NamesKept path segments ↔
      ∀ name, firstOf segments name = some (.bare name) → firstValue segments name = some [] := by
  have hparse : parseUrl (target path (segments.map Segment.text)) =
      some ⟨path, StdMap.emplaceAll ∅ (segments.map Segment.read)⟩ := by
    rw [parseUrl_target hpath (by simpa using hne)]
    · rw [List.map_map]
      congr 3
      exact List.map_congr_left fun s hs => Segment.segmentPair_text (hproper s hs)
    · intro t ht
      obtain ⟨s, hs, rfl⟩ := List.mem_map.mp ht
      exact (hproper s hs).notMem_text
  have hparam {s : Segment} (hs : s ∈ segments) :
      (StdMap.emplaceAll ∅ (segments.map Segment.read))[s.name]? = firstValue segments s.name := by
    rw [StdMap.getElem?_emplaceAll, lookup_read (hproper s hs).1]
    simp
  constructor
  · rintro ⟨uri, huri, hkept⟩ name hfirst
    obtain rfl := Option.some.inj (hparse.symm.trans huri)
    have hmem : .bare name ∈ segments := List.mem_of_find?_eq_some hfirst
    have := hkept _ hmem
    rw [hparam hmem] at this
    simpa [Segment.name, hfirst, Segment.value] using this
  · intro h
    refine ⟨_, hparse, fun s hs => ?_⟩
    rw [hparam hs]
    -- a segment with this name is in the list
    obtain ⟨first, hfirst⟩ : ∃ first, firstOf segments s.name = some first :=
      Option.isSome_iff_exists.mp (List.find?_isSome.mpr ⟨s, hs, by simp⟩)
    rw [hfirst, Option.map_some]
    cases first with
    | pair n v => exact firstValue_of_firstOf hfirst
    | bare n =>
      have hname := List.find?_some hfirst
      have hn : n = s.name := of_decide_eq_true hname
      rw [hn] at hfirst
      exact h _ hfirst

/-- A bare name behind a value of its own is not lost. -/
theorem namesKept_value_first :
    NamesKept "/p".toList [.pair "a".toList "1".toList, .bare "a".toList] := by
  refine (namesKept_iff (by decide) (by decide) (by decide)).mpr ?_
  intro name hfirst
  have hmem := List.mem_of_find?_eq_some hfirst
  obtain rfl : name = "a".toList := by simpa using hmem
  exact absurd hfirst (by decide)

/-- A bare name alone is lost: it is bound as the value of the empty key. -/
theorem bare_name_lost : ¬ NamesKept "/p".toList [.bare "flag".toList] ∧
    (splitUrl "/p?flag".toList).uriParam.toList = [([], "flag".toList)] := by
  constructor
  · rintro ⟨uri, huri, hkept⟩
    rw [parseUrl_eq_splitUrl] at huri
    obtain rfl := Option.some.inj huri
    exact absurd (hkept _ (List.mem_singleton.mpr rfl)) (by decide)
  · decide

end FHT.Server
