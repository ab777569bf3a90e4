import FHT.Server.Dispatch
import FHT.Server.Isolation
import FHT.Server.Release

/-!
# The keys of plain handlers and of WebSocket handlers

Plain handlers are registered under keys that start with a slash, WebSocket handlers under such
a key behind `ws`. An upgrade request is looked up with `ws` in front of its location, any other
request by its location alone, which need not start with a slash.

## Main results

- `dispatched_ofKind_iff` — when the requests on a connection reach handlers of their kind only
-/

namespace FHT.Server

variable {ρ F A : Type}

def IsPlain (key : Str) : Prop := ∃ p, key = '/' :: p

def IsWebSocket (key : Str) : Prop := ∃ p, key = webSocket ('/' :: p)

/-- The keys of the table are of the two kinds. `addUniqueHendler` makes an object for each id,
so that every handler has one key. -/
structure KeySpaces (keyOf : F → Str) (H : StdMap Str F) : Prop where
  keyOf_eq : ∀ {key f}, H[key]? = some f → keyOf f = key
  kind : ∀ {key}, key ∈ H → IsPlain key ∨ IsWebSocket key

/-- The key of a handler is not of the kind that the request does not ask for. -/
def OfKind (keyOf : F → Str) (isWS : Bool) (f : F) : Prop :=
  if isWS then ¬ IsPlain (keyOf f) else ¬ IsWebSocket (keyOf f)

/-- The request is kept from the handlers of the other kind: an upgrade request with an empty
location finds no handler left by an earlier request, and the location of another request does
not start with `ws/` and reach a key. -/
def KeptApart (lessenAll : Bool) (func : Option F) (a : Arrival F A) : Prop :=
  a.req.method.dispatched → a.remote ≠ none →
    if a.req.isUpgrade then ownLocation lessenAll a.req.target = [] → func = none
    else ¬ ("ws/".toList <+: ownLocation lessenAll a.req.target ∧
      Reached a.H false (ownLocation lessenAll a.req.target))

/-- The table that a request meets has keys of the two kinds. -/
def Action.InKeySpaces (keyOf : F → Str) : Action F A → Prop
  | .read a => KeySpaces keyOf a.H
  | _ => True

section Keys

variable {keyOf : F → Str} {H : StdMap Str F} {L : Str} {f : F} {i : Nat}

theorem IsPlain.not_isWebSocket {key : Str} (h : IsPlain key) : ¬ IsWebSocket key := by
  rintro ⟨q, hq⟩
  obtain ⟨p, rfl⟩ := h
  exact absurd (List.cons.inj hq).1 (by decide)

theorem KeySpaces.keyOf_longest (hH : KeySpaces keyOf H) {isWS : Bool}
    (hi : Longest H isWS L f i) :
    keyOf f = segmentKey isWS (L.take i) ∧ (IsPlain (keyOf f) ∨ IsWebSocket (keyOf f)) := by
  have hkey := hH.keyOf_eq hi.2
  exact ⟨hkey, hkey ▸ hH.kind hi.1.1.2.2.2⟩

/-- What an upgrade request is looked up by starts with `ws`. -/
theorem KeySpaces.not_isPlain_of_longest (hH : KeySpaces keyOf H) (hi : Longest H true L f i) :
    ¬ IsPlain (keyOf f) := by
  rintro ⟨p, hp⟩
  rw [(hH.keyOf_longest hi).1] at hp
  exact absurd (List.cons.inj hp).1 (by decide)

theorem KeySpaces.isWebSocket_iff_of_longest (hH : KeySpaces keyOf H)
    (hi : Longest H false L f i) : IsWebSocket (keyOf f) ↔ "ws/".toList <+: L := by
  obtain ⟨hkey, hkind⟩ := hH.keyOf_longest hi
  have htake : keyOf f <+: L := by
    rw [hkey]
    exact List.take_prefix i L
  constructor
  · rintro ⟨p, hp⟩
    have hws : "ws/".toList <+: keyOf f := ⟨p, hp.symm⟩
    exact hws.trans htake
  · rintro ⟨rest, rfl⟩
    refine hkind.resolve_left ?_
    -- the prefix is not empty, so that it starts with `w`
    rintro ⟨p, hp⟩
    obtain ⟨q, hq⟩ := hp ▸ htake
    exact absurd (List.cons.inj hq).1 (by decide)

end Keys

/-- The handler that a request is handed to. -/
def Handling.handler : Handling ρ F A → Option F
  | .call f _ _ | .upgrade f => some f
  | .answer _ | .throw _ => none

theorem handler_handling_eq_some_iff (http : Http ρ) (lessenAll : Bool) (d : DataRequest A)
    (func : Option F) (a : Arrival F A) (f : F) :
    (handling http lessenAll d func a).handler = some f ↔
      a.req.method.dispatched ∧ a.remote ≠ none ∧ (routing lessenAll func a).1 = some f := by
  rw [handling]
  by_cases hm : a.req.method.dispatched = true
  · rw [if_pos hm]
    cases a.remote with
    | none => simp [Handling.handler]
    | some info =>
      rcases routing lessenAll func a with ⟨_ | g, nextLocation⟩
      · simp [Handling.handler]
      · dsimp only
        split
        · simp [Handling.handler, hm]
        · simp [Handling.handler, hm]
  · rw [if_neg hm]
    split
    · simp [Handling.handler, hm]
    · simp [Handling.handler, hm]

/-- The routing leaves the handler of an earlier request or finds the one of the longest match. -/
theorem routing_fst_eq_some_iff (lessenAll : Bool) (func : Option F) (a : Arrival F A) (f : F) :
    (routing lessenAll func a).1 = some f ↔
      ownLocation lessenAll a.req.target = [] ∧ func = some f ∨
        ∃ i, Longest a.H a.req.isUpgrade (ownLocation lessenAll a.req.target) f i := by
  by_cases hL : ownLocation lessenAll a.req.target = []
  · have hno (i : Nat) : ¬ Longest a.H a.req.isUpgrade [] f i := by
      rintro ⟨⟨⟨hpos, hle, _⟩, _⟩, _⟩
      exact absurd hle (by simp; omega)
    simp [routing, hL, hno]
  · rw [routing, if_neg hL]
    simp only [hL, false_and, false_or, ← select_length_eq_some_iff]
    cases select a.H a.req.isUpgrade (ownLocation lessenAll a.req.target)
        (ownLocation lessenAll a.req.target).length with
    | none => simp [routed]
    | some p => simp [routed, Prod.ext_iff]

/-- One request, where the handler left by earlier ones is a plain one. -/
theorem ofKind_iff_keptApart (http : Http ρ) {keyOf : F → Str} {lessenAll : Bool}
    (d : DataRequest A) {func : Option F} {a : Arrival F A} (hH : KeySpaces keyOf a.H)
    (hfunc : ∀ f ∈ func, IsPlain (keyOf f)) :
    (∀ f, (handling http lessenAll d func a).handler = some f →
        OfKind keyOf a.req.isUpgrade f) ↔ KeptApart lessenAll func a := by
  simp only [handler_handling_eq_some_iff, routing_fst_eq_some_iff, KeptApart, OfKind]
  cases hup : a.req.isUpgrade with
  | true =>
    constructor
    · intro h hm hremote hL
      by_contra hne
      obtain ⟨f, hf⟩ := Option.ne_none_iff_exists'.mp hne
      exact h f ⟨hm, hremote, .inl ⟨hL, hf⟩⟩ (hfunc f hf)
    · rintro h f ⟨hm, hremote, ⟨hL, hf⟩ | ⟨i, hi⟩⟩
      · rw [h hm hremote hL] at hf
        cases hf
      · exact hH.not_isPlain_of_longest hi
  | false =>
    constructor
    · rintro h hm hremote ⟨hws, hr⟩
      have hsome : select a.H false (ownLocation lessenAll a.req.target)
          (ownLocation lessenAll a.req.target).length ≠ none := fun hnone =>
        (select_eq_none_iff_not_reached a.H false _).mp hnone hr
      obtain ⟨⟨f, i⟩, hs⟩ := Option.ne_none_iff_exists'.mp hsome
      have hi := select_length_eq_some_iff.mp hs
      exact h f ⟨hm, hremote, .inr ⟨i, hi⟩⟩ ((hH.isWebSocket_iff_of_longest hi).mpr hws)
    · rintro h f ⟨hm, hremote, ⟨_, hf⟩ | ⟨i, hi⟩⟩
      · exact (hfunc f hf).not_isWebSocket
      · exact fun hws => h hm hremote ⟨(hH.isWebSocket_iff_of_longest hi).mp hws,
          reached_of_select _ _ (select_length_eq_some_iff.mpr hi)⟩

theorem handling_eq_upgrade {http : Http ρ} {lessenAll : Bool} {d : DataRequest A}
    {func : Option F} {a : Arrival F A} {f : F}
    (h : handling http lessenAll d func a = .upgrade f) :
    ∃ info nextLocation, a.req.method.dispatched ∧ a.remote = some info ∧
      a.req.isUpgrade = true ∧ routing lessenAll func a = (some f, nextLocation) := by
  rw [handling] at h
  by_cases hm : a.req.method.dispatched = true
  · rw [if_pos hm] at h
    cases hinfo : a.remote with
    | none => simp [hinfo] at h
    | some info =>
      rw [hinfo] at h
      rcases hr : routing lessenAll func a with ⟨_ | g, nextLocation⟩
      · simp [hr] at h
      · by_cases hup : a.req.isUpgrade = true
        · obtain rfl : g = f := by simpa [hr, hup] using h
          exact ⟨info, nextLocation, hm, rfl, hup, rfl⟩
        · simp [hr, hup] at h
  · rw [if_neg hm] at h
    split at h
    · cases h
    · cases h

namespace Async.HttpServer

/-- The handler that reading a request in `h` has led to: it was called, or the handshake is
under way for it. -/
def DispatchedTo (h t : HttpServer ρ F A) (f : F) : Prop :=
  (∃ d, handlerCalls t.log = handlerCalls h.log ++ [(f, d)]) ∨
    t.pending = .accept ∧ t.func = some f

theorem dispatchedTo_onRead (http : Http ρ) (h : HttpServer ρ F A) (a : Arrival F A) (f : F) :
    DispatchedTo h (h.onRead http a) f ↔
      (handling http h.lessenAll h.dataReq h.func a).handler = some f := by
  obtain ⟨_, hpending, _⟩ := onRead_follows http h a
  rw [DispatchedTo, handlerCalls_onRead, hpending]
  cases hd : handling http h.lessenAll h.dataReq h.func a with
  | answer res => simp [Handling.called, Handling.handler, follows]
  | call g d reply =>
    cases hanswer : replyAnswer http a.req reply <;>
      simp [Handling.called, Handling.handler, follows, hanswer]
  | throw e => simp [Handling.called, Handling.handler, follows]
  | upgrade g =>
    obtain ⟨info, nextLocation, hm, hinfo, hup, hrouting⟩ := handling_eq_upgrade hd
    simp [onRead_upgrade http h hm hinfo hup hrouting, Handling.called, Handling.handler, follows]

/-- What the step dispatches a request to is of the request's kind. -/
def KindKept (keyOf : F → Str) (h : HttpServer ρ F A) (act : Action F A)
    (t : HttpServer ρ F A) : Prop :=
  match act with
  | .read a => ∀ f, DispatchedTo h t f → OfKind keyOf a.req.isUpgrade f
  | _ => True

def Apart (h : HttpServer ρ F A) : Action F A → Prop
  | .read a => KeptApart h.lessenAll h.func a
  | _ => True

/-- As long as requests are read, the handler left is a plain one. -/
def PlainLeft (keyOf : F → Str) (h : HttpServer ρ F A) : Prop :=
  (h.pending = .read ∨ ∃ close, h.pending = .write close) → ∀ f ∈ h.func, IsPlain (keyOf f)

theorem onRead_func (http : Http ρ) (h : HttpServer ρ F A) (a : Arrival F A) :
    (h.onRead http a).func = h.func ∨ a.req.method.dispatched ∧ a.remote ≠ none ∧
      (h.onRead http a).func = (routing h.lessenAll h.func a).1 := by
  by_cases hm : a.req.method.dispatched = true
  · rw [onRead_eq_dispatch http h hm, dispatch]
    cases hinfo : a.remote with
    | none => exact .inl rfl
    | some info =>
      refine .inr ⟨hm, by simp, ?_⟩
      simp only [route_routing]
      rcases routing h.lessenAll h.func a with ⟨_ | f, nextLocation⟩
      · rfl
      · dsimp only
        split
        · rfl
        · rw [callHandler_eq]
          cases replyAnswer http _ a.reply <;> rfl
  · refine .inl ?_
    unfold onRead
    cases hv : a.req.method <;> simp [hv, Verb.dispatched] at hm
    · rfl
    · rfl

theorem Upgraded.plainLeft {h : HttpServer ρ F A} (hu : h.Upgraded) (keyOf : F → Str) :
    h.PlainLeft keyOf := by
  rcases hu with hp | hp | ⟨e, hp⟩
  · simp [PlainLeft, hp]
  · simp [PlainLeft, hp]
  · simp [PlainLeft, hp]

theorem orCrash_plainLeft (h : HttpServer ρ F A) {o : Option (HttpServer ρ F A)}
    (ho : ∀ h', o = some h' → h'.Upgraded) (keyOf : F → Str) : (h.orCrash o).PlainLeft keyOf := by
  cases o with
  | none => simp [orCrash, PlainLeft]
  | some h' => exact (ho h' rfl).plainLeft keyOf

theorem step_kindKept_iff (http : Http ρ) {keyOf : F → Str} {h t : HttpServer ρ F A}
    {act : Action F A} (hact : act.InKeySpaces keyOf) (hI : h.PlainLeft keyOf)
    (hstep : step http h act = some t) : KindKept keyOf h act t ↔ Apart h act := by
  have hcase := step_eq_some hstep
  cases act with
  | read a =>
    obtain ⟨hread, rfl⟩ := hcase
    simp only [KindKept, dispatchedTo_onRead]
    exact ofKind_iff_keptApart http h.dataReq hact (hI (.inl hread))
  | readError | written | accepted | message | wsError | user => exact Iff.rfl

/-- A request that is dispatched to a handler of its kind leaves a plain one, unless the
connection becomes a WebSocket. -/
theorem step_plainLeft (http : Http ρ) {keyOf : F → Str} {h t : HttpServer ρ F A}
    {act : Action F A} (hact : act.InKeySpaces keyOf) (hI : h.PlainLeft keyOf)
    (hstep : step http h act = some t) (hkind : KindKept keyOf h act t) : t.PlainLeft keyOf := by
  have hcase := step_eq_some hstep
  cases act with
  | read a =>
    obtain ⟨hread, rfl⟩ := hcase
    intro hpending f hf
    rcases onRead_func http h a with hsame | ⟨hm, hremote, hrouted⟩
    · rw [hsame] at hf
      exact hI (.inl hread) f hf
    · rw [hrouted] at hf
      have hhandler := (handler_handling_eq_some_iff http h.lessenAll h.dataReq h.func a f).mpr
        ⟨hm, hremote, hf⟩
      have hof := hkind f ((dispatchedTo_onRead http h a f).mpr hhandler)
      by_cases hup : a.req.isUpgrade = true
      · -- such a connection waits for the handshake
        obtain ⟨info, hinfo⟩ := Option.ne_none_iff_exists'.mp hremote
        have hread := onRead_upgrade http h hm hinfo hup (Prod.ext hf rfl)
        simp [hread] at hpending
      · rw [OfKind, if_neg hup] at hof
        rcases (routing_fst_eq_some_iff h.lessenAll h.func a f).mp hf with ⟨_, hold⟩ | ⟨i, hi⟩
        · exact hI (.inl hread) f hold
        · exact (hact.keyOf_longest hi).2.resolve_right hof
  | readError endOfStream =>
    obtain ⟨_, rfl⟩ := hcase
    cases endOfStream <;> simp [PlainLeft, onReadError]
  | written ok =>
    obtain ⟨close, hp, rfl⟩ := hcase
    have hfunc := hI (.inr ⟨close, hp⟩)
    cases ok <;> cases close <;> simp [PlainLeft, onWrite]
    exact hfunc
  | accepted ok handler =>
    obtain ⟨_, rfl⟩ := hcase
    exact h.orCrash_plainLeft (fun _ => onAcceptWs_upgraded) keyOf
  | message text payload run =>
    obtain ⟨_, rfl⟩ := hcase
    exact h.orCrash_plainLeft (fun _ => onReadWs_upgraded) keyOf
  | wsError run =>
    obtain ⟨_, rfl⟩ := hcase
    obtain ⟨h', heq, hup⟩ := h.onReadWsError_safe run
    rw [heq]
    exact hup.plainLeft keyOf
  | user op =>
    obtain ⟨hp, rfl⟩ := hcase
    obtain ⟨h', heq, hpending, _⟩ := h.userOp_safe op
    rw [heq]
    simp [orCrash, PlainLeft, hpending, hp]

end Async.HttpServer

namespace Coro.Session

def DispatchedTo (s t : Session ρ F A) (f : F) : Prop :=
  (∃ d, handlerCalls t.log = handlerCalls s.log ++ [(f, d)]) ∨
    t.pending = .accept ∧ t.func = some f

theorem dispatchedTo_onRead (http : Http ρ) (s : Session ρ F A) (a : Arrival F A) (f : F) :
    DispatchedTo s (s.onRead http a) f ↔
      (handling http s.lessenAll .empty none a).handler = some f := by
  obtain ⟨hlog, hpending, _⟩ := onRead_follows http s a
  rw [DispatchedTo, hpending, hlog, handlerCalls, List.filterMap_append]
  change (∃ d, handlerCalls s.log ++ handlerCalls _ = _) ∨ _ ↔ _
  rw [Handling.handlerCalls_events]
  cases hd : handling http s.lessenAll .empty none a with
  | answer res => simp [Handling.called, Handling.handler, follows]
  | call g d reply =>
    cases hanswer : replyAnswer http a.req reply <;>
      simp [Handling.called, Handling.handler, follows, hanswer]
  | throw e => simp [Handling.called, Handling.handler, follows]
  | upgrade g =>
    obtain ⟨info, nextLocation, hm, hinfo, hup, hrouting⟩ := handling_eq_upgrade hd
    simp [onRead_upgrade http s hm hinfo hup hrouting, Handling.called, Handling.handler, follows]

def KindKept (keyOf : F → Str) (s : Session ρ F A) (act : Action F A)
    (t : Session ρ F A) : Prop :=
  match act with
  | .read a => ∀ f, DispatchedTo s t f → OfKind keyOf a.req.isUpgrade f
  | _ => True

/-- The session starts every request from a new local. -/
def Apart (s : Session ρ F A) : Action F A → Prop
  | .read a => KeptApart s.lessenAll none a
  | _ => True

theorem step_kindKept_iff (http : Http ρ) {keyOf : F → Str} {s t : Session ρ F A}
    {act : Action F A} (hact : act.InKeySpaces keyOf) (hstep : step http s act = some t) :
    KindKept keyOf s act t ↔ Apart s act := by
  have hcase := step_eq_some hstep
  cases act with
  | read a =>
    obtain ⟨_, rfl⟩ := hcase
    simp only [KindKept, dispatchedTo_onRead]
    exact ofKind_iff_keptApart http .empty hact (by simp)
  | readError | written | accepted | message | wsError | user => exact Iff.rfl

end Coro.Session

/-- On a connection of either server, over tables whose keys are of the two kinds, every request
is dispatched to a handler of its kind exactly if the requests are kept apart. -/
theorem dispatched_ofKind_iff (http : Http ρ) (keyOf : F → Str) (lessenAll : Bool)
    (acts : List (Action F A)) (hacts : ∀ act ∈ acts, act.InKeySpaces keyOf) :
    ((Async.HttpServer.step http).Along (Async.HttpServer.KindKept keyOf) (.init lessenAll) acts ↔
      (Async.HttpServer.step http).Along (fun h act _ => h.Apart act) (.init lessenAll) acts) ∧
    ((Coro.Session.step http).Along (Coro.Session.KindKept keyOf) (.init lessenAll) acts ↔
      (Coro.Session.step http).Along (fun s act _ => s.Apart act) (.init lessenAll) acts) := by
  have hinit : (Async.HttpServer.init lessenAll : Async.HttpServer ρ F A).PlainLeft keyOf := by
    intro _ f hf
    cases hf
  constructor
  · constructor
    · intro h
      refine (h.and_forall hacts).imp (I := Async.HttpServer.PlainLeft keyOf) ?_ hinit
      rintro h act t hI hstep ⟨hact, hkind⟩
      exact ⟨(Async.HttpServer.step_kindKept_iff http hact hI hstep).mp hkind,
        Async.HttpServer.step_plainLeft http hact hI hstep hkind⟩
    · intro h
      refine (h.and_forall hacts).imp (I := Async.HttpServer.PlainLeft keyOf) ?_ hinit
      rintro h act t hI hstep ⟨hact, hapart⟩
      have hkind := (Async.HttpServer.step_kindKept_iff http hact hI hstep).mpr hapart
      exact ⟨hkind, Async.HttpServer.step_plainLeft http hact hI hstep hkind⟩
  · constructor
    · intro h
      refine (h.and_forall hacts).imp (I := fun _ => True) ?_ trivial
      rintro s act t _ hstep ⟨hact, hkind⟩
      exact ⟨(Coro.Session.step_kindKept_iff http hact hstep).mp hkind, trivial⟩
    · intro h
      refine (h.and_forall hacts).imp (I := fun _ => True) ?_ trivial
      rintro s act t _ hstep ⟨hact, hapart⟩
      exact ⟨(Coro.Session.step_kindKept_iff http hact hstep).mpr hapart, trivial⟩

theorem keySpaces_empty (keyOf : F → Str) : KeySpaces keyOf ∅ :=
  ⟨fun h => by simp at h, fun h => absurd h Std.ExtTreeMap.not_mem_empty⟩

theorem KeySpaces.emplace {keyOf : F → Str} {H : StdMap Str F} (hH : KeySpaces keyOf H) {key : Str}
    {f : F} (hf : keyOf f = key) (hkey : IsPlain key ∨ IsWebSocket key) :
    KeySpaces keyOf (StdMap.emplace H key f) where
  keyOf_eq {k g} hg := by
    rw [StdMap.getElem?_emplace] at hg
    split at hg
    · next hk =>
      subst hk
      cases hold : H[k]? with
      | none =>
        obtain rfl : f = g := by simpa [hold] using hg
        exact hf
      | some g' =>
        obtain rfl : g' = g := by simpa [hold] using hg
        exact hH.keyOf_eq hold
    · exact hH.keyOf_eq hg
  kind {k} hk := by
    rw [StdMap.mem_iff_getElem?_ne_none, StdMap.getElem?_emplace] at hk
    split at hk
    · next heq => exact heq ▸ hkey
    · exact hH.kind ((StdMap.mem_iff_getElem?_ne_none H k).mpr hk)

/-- The plain handler of `/a` is `0`, and its WebSocket handler is `1`. -/
def keyOfA (f : Nat) : Str := if f = 1 then webSocket "/a".toList else "/a".toList

/-- The request, where both are registered. -/
def withBoth (a : Arrival Nat Unit) : Arrival Nat Unit :=
  { a with H := StdMap.emplace (StdMap.emplace ∅ "/a".toList 0) (webSocket "/a".toList) 1 }

theorem keySpaces_withBoth (a : Arrival Nat Unit) : KeySpaces keyOfA (withBoth a).H := by
  have hplain : KeySpaces keyOfA (StdMap.emplace ∅ "/a".toList 0) :=
    (keySpaces_empty keyOfA).emplace rfl (.inl ⟨"a".toList, rfl⟩)
  exact hplain.emplace rfl (.inr ⟨"a".toList, rfl⟩)

/-- A request for `/a` and an upgrade for it, on one connection of either server. -/
theorem dispatched_ofKind_a :
    let acts :=
      [.read (withBoth (getWith "/a".toList [])), .written true, .read (withBoth upgradeA)]
    ((∃ h, (Async.HttpServer.step Message.http).run (.init false) acts = some h ∧
        h.func = some 1 ∧ handlerCalls h.log ≠ []) ∧
      (Async.HttpServer.step Message.http).Along (Async.HttpServer.KindKept keyOfA) (.init false)
        acts) ∧
    (∃ s, (Coro.Session.step Message.http).run (.init false) acts = some s ∧
        s.func = some 1 ∧ handlerCalls s.log ≠ []) ∧
      (Coro.Session.step Message.http).Along (Coro.Session.KindKept keyOfA) (.init false) acts := by
  intro acts
  have hacts : ∀ act ∈ acts, act.InKeySpaces keyOfA := by
    rw [show acts = [_, _, _] from rfl]
    rintro act (_ | ⟨_, _ | ⟨_, _ | ⟨_, h⟩⟩⟩)
    · exact keySpaces_withBoth _
    · trivial
    · exact keySpaces_withBoth _
    · cases h
  obtain ⟨hasync, hcoro⟩ := dispatched_ofKind_iff Message.http keyOfA false acts hacts
  refine ⟨⟨⟨_, rfl, rfl, by decide⟩, hasync.mpr ?_⟩, ⟨_, rfl, rfl, by decide⟩, hcoro.mpr ?_⟩
  · refine (Machine.along_cons_of_step rfl).mpr ⟨fun _ _ => ?_, ?_⟩
    · exact fun ⟨hws, _⟩ => absurd hws (by decide)
    refine (Machine.along_cons_of_step rfl).mpr ⟨trivial, ?_⟩
    refine (Machine.along_cons_of_step rfl).mpr ⟨fun _ _ hL => ?_, trivial⟩
    exact absurd hL (by decide)
  · refine (Machine.along_cons_of_step rfl).mpr ⟨fun _ _ => ?_, ?_⟩
    · exact fun ⟨hws, _⟩ => absurd hws (by decide)
    refine (Machine.along_cons_of_step rfl).mpr ⟨trivial, ?_⟩
    refine (Machine.along_cons_of_step rfl).mpr ⟨fun _ _ hL => ?_, trivial⟩
    exact absurd hL (by decide)

/-- A request for the WebSocket handler of `/a` that is no upgrade. -/
def plainWsA : Arrival Nat Unit :=
  { upgradeA with req := { upgradeA.req with target := "ws/a".toList, isUpgrade := false } }

/-- An upgrade request with an empty location. -/
def upgradeNothing : Arrival Nat Unit :=
  { getWith "?".toList [] with
    req := { (getWith "?".toList []).req with isUpgrade := true } }

/-- Where only the WebSocket handler of `/a` is registered, both servers call it for the target
`ws/a` without an upgrade. Where only the plain handler of `/a` is, the asynchronous server
accepts a WebSocket for it once it has answered a request for `/a`. -/
theorem plainWsA_dispatched :
    (KeySpaces (fun _ => webSocket "/a".toList) plainWsA.H ∧
      Async.HttpServer.DispatchedTo (.init false)
        ((Async.HttpServer.init false).onRead Message.http plainWsA) 0 ∧
      Coro.Session.DispatchedTo (.init false)
        ((Coro.Session.init false).onRead Message.http plainWsA) 0 ∧
      ¬ OfKind (fun _ : Nat => webSocket "/a".toList) plainWsA.req.isUpgrade 0) ∧
    KeySpaces (fun _ => "/a".toList) upgradeNothing.H ∧
      (∃ h, (Async.HttpServer.step Message.http).run (.init false)
          [.read (getWith "/a".toList []), .written true] = some h ∧
        Async.HttpServer.DispatchedTo h (h.onRead Message.http upgradeNothing) 0) ∧
      ¬ OfKind (fun _ : Nat => "/a".toList) upgradeNothing.req.isUpgrade 0 := by
  refine ⟨⟨(keySpaces_empty _).emplace rfl (.inr ⟨"a".toList, rfl⟩), .inl ⟨_, rfl⟩, .inl ⟨_, rfl⟩,
    ?_⟩, (keySpaces_empty _).emplace rfl (.inl ⟨"a".toList, rfl⟩), ⟨_, rfl, .inr ⟨rfl, rfl⟩⟩, ?_⟩
  · intro h
    exact h ⟨"a".toList, rfl⟩
  · intro h
    exact h ⟨"a".toList, rfl⟩

end FHT.Server
