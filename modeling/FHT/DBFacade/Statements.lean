import FHT.DBFacade.Pool

/-!
# Prepared statements

A connection remembers in `m_stmt_list` which statements it has prepared. The list and the
session on the server change together, and only by the query that holds the connection. The name
of a statement tells its text, since the dashes that are taken out of a uuid stand at fixed
places.

## Main definitions

- `Libpq.recorded` — the library, with sessions that record the calls made on them

## Main results

- `stmtName_injective` — texts with different uuids get different names
- `Postgres.statements_coherent` — list and session agree, nothing is prepared twice, and a
  query executes the statement that was prepared from its own text
-/

namespace FHT.DBFacade

def hexDigits : Str := "0123456789abcdef".toList

/-- The text of a uuid: groups of 8, 4, 4, 4 and 12 digits with a dash in between. -/
def UuidText (t : Str) : Prop :=
  ∃ groups : List Str, groups.map List.length = [8, 4, 4, 4, 12] ∧
    (∀ g ∈ groups, ∀ c ∈ g, c ∈ hexDigits) ∧ t = List.intercalate ['-'] groups

theorem filter_intercalate {groups : List Str} (h : ∀ g ∈ groups, ∀ c ∈ g, c ∈ hexDigits) :
    (List.intercalate ['-'] groups).filter (· ≠ '-') = groups.flatten := by
  have hkeep : ∀ g : Str, (∀ c ∈ g, c ∈ hexDigits) → g.filter (· ≠ '-') = g := by
    intro g hg
    refine List.filter_eq_self.mpr fun c hc => ?_
    have hdash : '-' ∉ hexDigits := by decide
    exact decide_eq_true fun heq => hdash (heq ▸ hg c hc)
  induction groups with
  | nil => rfl
  | cons g groups ih =>
    have hg := hkeep g (h g List.mem_cons_self)
    have hrest : ∀ g' ∈ groups, ∀ c ∈ g', c ∈ hexDigits := by
      intro g' hg'
      exact h g' (List.mem_cons_of_mem g hg')
    cases groups with
    | nil =>
      rw [List.intercalate_singleton, hg]
      simp
    | cons g' groups =>
      rw [List.intercalate_cons_cons, List.filter_append, List.filter_append, hg, ih hrest]
      simp

/-- Without its dashes a uuid is still the same. -/
theorem UuidText.eq_of_filter_eq {t t' : Str} (ht : UuidText t) (ht' : UuidText t')
    (h : t.filter (· ≠ '-') = t'.filter (· ≠ '-')) : t = t' := by
  obtain ⟨groups, hlen, hhex, rfl⟩ := ht
  obtain ⟨groups', hlen', hhex', rfl⟩ := ht'
  rw [filter_intercalate hhex, filter_intercalate hhex'] at h
  rw [List.eq_iff_flatten_eq.mpr ⟨h, hlen.trans hlen'.symm⟩]

theorem UuidText.mem_filter {t : Str} (ht : UuidText t) {c : Char}
    (hc : c ∈ t.filter (· ≠ '-')) : c ∈ hexDigits := by
  obtain ⟨groups, -, hhex, rfl⟩ := ht
  rw [filter_intercalate hhex] at hc
  obtain ⟨g, hg, hc⟩ := List.mem_flatten.mp hc
  exact hhex g hg c hc

section Names

variable {gen : Str → Str}

theorem stmtName_eq (query : Str) :
    stmtName gen query = "web_access_".toList ++ (guid gen query).filter (· ≠ '-') := by
  rw [stmtName, List.filter_append]
  rfl

theorem stmtName_injective (hgen : ∀ t, UuidText (gen t)) {query query' : Str}
    (h : stmtName gen query = stmtName gen query') : guid gen query = guid gen query' := by
  rw [stmtName_eq, stmtName_eq] at h
  exact (hgen _).eq_of_filter_eq (hgen _) (List.append_cancel_left h)

/-- A name is a C string. -/
theorem cStr_stmtName (hgen : ∀ t, UuidText (gen t)) (query : Str) :
    StdString.cStr (stmtName gen query) = stmtName gen query := by
  refine StdString.cStr_eq_self ?_
  rw [stmtName_eq]
  intro hmem
  rcases List.mem_append.mp hmem with hmem | hmem
  · revert hmem
    decide
  · have hdigit : Char.ofNat 0 ∉ hexDigits := by decide
    exact hdigit ((hgen _).mem_filter hmem)

end Names

/-- A call of `libpq` on a session, with what it is handed and its result. -/
inductive LibCall
  | prepare (stmtName query : Str) (res : Option PGresult)
  | execPrepared (stmtName : Str) (params : List (Option Str)) (res : Option PGresult)

section Recorded

variable {S : Type*} (lib : Libpq S)

/-- The same library, with sessions that record the calls made on them. -/
def Libpq.recorded : Libpq (S × List LibCall) where
  login config := (lib.login config, [])
  prepare s stmtName query res :=
    (lib.prepare s.1 stmtName query res, s.2 ++ [.prepare stmtName query res])
  execPrepared s stmtName params res :=
    (lib.execPrepared s.1 stmtName params res, s.2 ++ [.execPrepared stmtName params res])
  prepared s stmtName := lib.prepared s.1 stmtName

variable {lib}

theorem Libpq.Lawful.recorded (h : lib.Lawful) : lib.recorded.Lawful where
  login config stmtName := h.login config stmtName
  prepare_ok s stmtName query res hres := h.prepare_ok s.1 stmtName query res hres
  prepare_failed s stmtName query res hres := h.prepare_failed s.1 stmtName query res hres
  execPrepared s stmtName params res := h.execPrepared s.1 stmtName params res

end Recorded

namespace Postgres

variable {S : Type*} (lib : Libpq S) (gen : Str → Str)

/-- The list of the connection and its session agree, and each statement of the session was
prepared under the name of its text, one of `T`. -/
structure InStep (T : Str → Prop) (connection : PostgresConnection S) : Prop where
  list : ∀ name, name ∈ connection.stmtList ↔
    (lib.prepared connection.connection name).isSome
  text : ∀ name query, lib.prepared connection.connection name = some query →
    T query ∧ name = stmtName gen query

/-- A query that is about to prepare does not find its statement on its connection, and one
that is about to execute does. -/
def Ready (connections : List (PostgresConnection S)) (q : Query) : Prop :=
  match q.stage with
  | .prepare c => ∃ connection, connections[c]? = some connection ∧
      stmtName gen q.query ∉ connection.stmtList
  | .exec c => ∃ connection, connections[c]? = some connection ∧
      stmtName gen q.query ∈ connection.stmtList
  | _ => True

structure Coherent (T : Str → Prop) (s : Postgres S) : Prop where
  texts : ∀ i q, s.queries i = some q → T q.query
  inStep : ∀ (c : Nat) (connection : PostgresConnection S),
    s.connections[c]? = some connection → InStep lib gen T connection
  ready : ∀ i q, s.queries i = some q → Ready gen s.connections q

variable {lib gen} {T : Str → Prop}

/-- A query needs no more of the connections than the one that it holds. -/
theorem Ready.of_getElem? {connections connections' : List (PostgresConnection S)} {q : Query}
    (h : Ready gen connections q)
    (heq : ∀ c, q.stage.held = some c → connections'[c]? = connections[c]?) :
    Ready gen connections' q := by
  unfold Ready at h ⊢
  cases hst : q.stage with
  | prepare c | exec c =>
    rw [hst] at h heq
    obtain ⟨connection, hc, hname⟩ := h
    exact ⟨connection, (heq c rfl).trans hc, hname⟩
  | _ => trivial

theorem Ready.append {connections : List (PostgresConnection S)} {q : Query}
    (h : Ready gen connections q) (more : List (PostgresConnection S)) :
    Ready gen (connections ++ more) q := by
  have hkeep : ∀ (c : Nat) connection, connections[c]? = some connection →
      (connections ++ more)[c]? = some connection := by
    intro c connection hc
    rw [List.getElem?_append_left (List.getElem?_eq_some_iff.mp hc).1, hc]
  unfold Ready at h ⊢
  cases hst : q.stage with
  | prepare c | exec c =>
    rw [hst] at h
    obtain ⟨connection, hc, hname⟩ := h
    exact ⟨connection, hkeep c connection hc, hname⟩
  | _ => trivial

/-- What a query did not find in the list is not prepared in the session. -/
theorem Coherent.not_prepared {s : Postgres S} (h : Coherent lib gen T s) {i c : Nat} {q : Query}
    {connection : PostgresConnection S} (hi : s.queries i = some q) (hst : q.stage = .prepare c)
    (hc : s.connections[c]? = some connection) :
    lib.prepared connection.connection (stmtName gen q.query) = none := by
  have hready := h.ready i q hi
  rw [Ready, hst] at hready
  obtain ⟨connection', hc', hnot⟩ := hready
  obtain rfl := Option.some.inj (hc.symm.trans hc')
  rw [(h.inStep c connection hc).list] at hnot
  exact Option.not_isSome_iff_eq_none.mp hnot

/-- A query goes on, and no connection changes. -/
theorem Coherent.goOn {s s' : Postgres S} (h : Coherent lib gen T s) {i : Nat} {q : Query}
    (hqueries : s'.queries = Function.update s.queries i (some q))
    (hconnections : s'.connections = s.connections) (hT : T q.query)
    (hready : Ready gen s.connections q) : Coherent lib gen T s' := by
  refine ⟨?_, ?_, ?_⟩
  · intro j q' hj
    rw [hqueries, Function.update_apply] at hj
    split at hj
    · obtain rfl := Option.some.inj hj
      exact hT
    · exact h.texts j q' hj
  · rw [hconnections]
    exact h.inStep
  · intro j q' hj
    rw [hconnections]
    rw [hqueries, Function.update_apply] at hj
    split at hj
    · obtain rfl := Option.some.inj hj
      exact hready
    · exact h.ready j q' hj

/-- A query uses its connection, which no other query holds. -/
theorem Coherent.use {s : Postgres S} (h : Coherent lib gen T s) (hkept : s.PoolKept)
    {i c : Nat} {q : Query} {stage : Stage} {connection : PostgresConnection S}
    (hi : s.queries i = some q) (hheld : q.stage.held = some c)
    (hin : InStep lib gen T connection)
    (hready : Ready gen (s.connections.set c connection) { q with stage := stage }) :
    Coherent lib gen T ((s.setConnection c connection).setStage i q stage) := by
  have hmine : s.Holds i c := ⟨q, hi, hheld⟩
  refine ⟨?_, ?_, ?_⟩
  · intro j q' hj
    rw [setStage_queries] at hj
    split at hj
    · obtain rfl := Option.some.inj hj
      exact h.texts i q hi
    · exact h.texts j q' hj
  · intro c' connection' hc'
    have hc' : (s.connections.set c connection)[c']? = some connection' := hc'
    rw [List.getElem?_set] at hc'
    split at hc'
    · split at hc'
      · obtain rfl := Option.some.inj hc'
        exact hin
      · cases hc'
    · exact h.inStep c' connection' hc'
  · intro j q' hj
    rw [setStage_queries] at hj
    split at hj
    · obtain rfl := Option.some.inj hj
      exact hready
    · next hji =>
      refine (h.ready j q' hj).of_getElem? fun c' hc' => ?_
      have hne : c ≠ c' := by
        rintro rfl
        have hother : s.Holds j c := ⟨q', hj, hc'⟩
        exact hji (hkept.alone j i (some c) (lent_eq_some_iff.mpr hother)
          (lent_eq_some_iff.mpr hmine))
      exact List.getElem?_set_ne hne

/-- What is known of the parameters. -/
structure Given (lib : Libpq S) (gen : Str → Str) (T : Str → Prop) : Prop where
  lawful : lib.Lawful
  uuidText : ∀ t, UuidText (gen t)
  injective : ∀ query query', T query → T query' → gen query = gen query' → query = query'
  noNul : ∀ query, T query → Char.ofNat 0 ∉ query

theorem Given.guid_eq (hg : Given lib gen T) {query : Str} (hT : T query) :
    guid gen query = gen query := by
  rw [guid, StdString.cStr_eq_self (hg.noNul query hT)]

theorem Given.stmtName_inj (hg : Given lib gen T) {query query' : Str} (hT : T query)
    (hT' : T query') (h : stmtName gen query = stmtName gen query') : query = query' := by
  have hguid := stmtName_injective hg.uuidText h
  rw [hg.guid_eq hT, hg.guid_eq hT'] at hguid
  exact hg.injective query query' hT hT' hguid

/-- What it found there was prepared from its own text. -/
theorem Coherent.prepared_text (hg : Given lib gen T) {s : Postgres S} (h : Coherent lib gen T s)
    {i c : Nat} {q : Query} {connection : PostgresConnection S} (hi : s.queries i = some q)
    (hst : q.stage = .exec c) (hc : s.connections[c]? = some connection) :
    lib.prepared connection.connection (stmtName gen q.query) = some q.query := by
  have hready := h.ready i q hi
  rw [Ready, hst] at hready
  obtain ⟨connection', hc', hmem⟩ := hready
  obtain rfl := Option.some.inj (hc.symm.trans hc')
  have hin := h.inStep c connection hc
  rw [hin.list, Option.isSome_iff_exists] at hmem
  obtain ⟨query, hquery⟩ := hmem
  -- the name tells the text
  obtain ⟨hT, heq⟩ := hin.text _ query hquery
  rw [hquery, hg.stmtName_inj (h.texts i q hi) hT heq]

/-- A statement is prepared and added to the list. -/
theorem InStep.prepare_ok (hg : Given lib gen T) {connection : PostgresConnection S}
    (h : InStep lib gen T connection) {query : Str} (hT : T query) {res : PGresult}
    (hres : res.status = .PGRES_COMMAND_OK) :
    InStep lib gen T
      ⟨lib.prepare connection.connection (StdString.cStr (stmtName gen query))
        (StdString.cStr query) (some res), insert (stmtName gen query) connection.stmtList⟩ := by
  rw [cStr_stmtName hg.uuidText, StdString.cStr_eq_self (hg.noNul query hT)]
  have hprepared := hg.lawful.prepare_ok connection.connection (stmtName gen query) query res hres
  refine ⟨?_, ?_⟩
  · intro name
    show name ∈ insert (stmtName gen query) connection.stmtList ↔ _
    rw [Finset.mem_insert, hprepared, Function.update_apply]
    split
    · next heq => simp [heq]
    · next hne => simp [hne, h.list]
  · intro name text htext
    rw [hprepared, Function.update_apply] at htext
    split at htext
    · next heq =>
      obtain rfl := Option.some.inj htext
      exact ⟨hT, heq⟩
    · exact h.text name text htext

/-- A call that does not change what is prepared. -/
theorem InStep.of_prepared_eq {connection : PostgresConnection S}
    (h : InStep lib gen T connection) {session : S}
    (heq : lib.prepared session = lib.prepared connection.connection) :
    InStep lib gen T ⟨session, connection.stmtList⟩ := by
  refine ⟨?_, ?_⟩
  · intro name
    rw [heq]
    exact h.list name
  · intro name text htext
    rw [heq] at htext
    exact h.text name text htext

/-- New connections have an empty list and nothing prepared. -/
theorem emplaceConnections_coherent (hg : Given lib gen T) {config : Configuration}
    {logins : List Login} {s s' : Postgres S} {e : Option Thrown} (h : Coherent lib gen T s)
    (hs : s.emplaceConnections lib config logins = (s', e)) : Coherent lib gen T s' := by
  induction logins generalizing s with
  | nil =>
    obtain rfl : s = s' := congrArg Prod.fst hs
    exact h
  | cons l logins ih =>
    rw [emplaceConnections] at hs
    split at hs
    · obtain rfl : s = s' := congrArg Prod.fst hs
      exact h
    · next connection hmake =>
      refine ih ?_ hs
      refine ⟨h.texts, ?_, fun i q hi => Ready.append (h.ready i q hi) [connection]⟩
      · intro c connection' hc
        have hc : (s.connections ++ [connection])[c]? = some connection' := hc
        rw [List.getElem?_append] at hc
        split at hc
        · exact h.inStep c connection' hc
        · obtain rfl : connection = connection' :=
            (List.mem_singleton.mp (List.mem_of_getElem? hc)).symm
          rw [PostgresConnection.make] at hmake
          split at hmake
          · split at hmake
            · cases hmake
            · obtain rfl := Except.ok.inj hmake
              exact ⟨by simp [hg.lawful.login], by simp [hg.lawful.login]⟩
          · cases hmake

theorem step_coherent {s s' : Postgres S} {a : Action} (hg : Given lib gen T)
    (ha : ∀ i query param, a = .begin i query param → T query) (hkept : s.PoolKept)
    (h : Coherent lib gen T s) (hs : step lib gen s a = some s') : Coherent lib gen T s' := by
  cases step_moves hs with
  | run =>
    rw [run]
    split
    · exact h
    · split
      · next he => exact emplaceConnections_coherent hg h he
      · next t ht =>
        have hcoherent : Coherent lib gen T t := emplaceConnections_coherent hg h ht
        exact ⟨hcoherent.texts, hcoherent.inStep, hcoherent.ready⟩
  | begin hi =>
    refine h.goOn rfl rfl (ha _ _ _ rfl) ?_
    cases s.isRun <;> trivial
  | wait hi hst | null hi hst | freeNull hi hst | free hi hst | notifyNone hi hst
  | spurious hi hst =>
    have hT := h.texts _ _ hi
    exact h.goOn rfl rfl hT trivial
  | @take i q c rest connection hi hst hp hc =>
    refine h.goOn rfl rfl (h.texts i q hi) ?_
    by_cases hname : stmtName gen q.query ∈ connection.stmtList
    · rw [if_pos hname]
      exact ⟨connection, hc, hname⟩
    · rw [if_neg hname]
      exact ⟨connection, hc, hname⟩
  | @prepared i q c r connection hi hst hc hok =>
    have hin := (h.inStep c connection hc).prepare_ok hg (h.texts i q hi) hok
    refine h.use hkept hi (by rw [hst]; rfl) hin ?_
    have hlt := (List.getElem?_eq_some_iff.mp hc).1
    exact ⟨_, List.getElem?_set_self hlt, Finset.mem_insert_self ..⟩
  | @prepareFailed i q c res e connection hi hst hc he =>
    refine h.use hkept hi (by rw [hst]; rfl) ((h.inStep c connection hc).of_prepared_eq ?_) trivial
    refine hg.lawful.prepare_failed _ _ _ _ ?_
    rintro r rfl hok
    rw [prepareError, if_neg (not_not.mpr hok)] at he
    cases he
  | @exec i q c res connection hi hst hc =>
    refine h.use hkept hi (by rw [hst]; rfl) ((h.inStep c connection hc).of_prepared_eq ?_) trivial
    exact hg.lawful.execPrepared _ _ _ _
  | @notify i j q q' out hi hst hji hj hst' =>
    have hreturned : Coherent lib gen T (s.setStage i q (.returned out)) :=
      h.goOn rfl rfl (h.texts i q hi) trivial
    exact hreturned.goOn rfl rfl (h.texts j q' hj) trivial

theorem init_coherent : Coherent lib gen T (init : Postgres S) where
  texts := by simp [init]
  inStep := by simp [init]
  ready := by simp [init]

/-- The text is that of a query of the run. -/
def Used (acts : List Action) (query : Str) : Prop := ∃ i param, .begin i query param ∈ acts

/-- The list of each connection holds the names that its session has prepared. -/
def ListsAgree (lib : Libpq S) (s : Postgres (S × List LibCall)) : Prop :=
  ∀ connection ∈ s.connections, ∀ name, name ∈ connection.stmtList ↔
    (lib.prepared connection.connection.1 name).isSome

/-- The calls that have been made on the connection `c`. -/
def calls (s : Postgres (S × List LibCall)) (c : Nat) : List LibCall :=
  (s.connections[c]?.map fun connection => connection.connection.2).getD []

/-- A step has made one call, on the session `session` of the connection `c`. -/
structure Calls (s s' : Postgres (S × List LibCall)) (c : Nat) (session : S) (call : LibCall) :
    Prop where
  session : ∃ connection, s.connections[c]? = some connection ∧ connection.connection.1 = session
  made : s'.calls c = s.calls c ++ [call]
  others : ∀ c', c' ≠ c → s'.calls c' = s.calls c'

/-- A query that prepares does so on the connection that it holds, for its own text and a name that
the session has not prepared; one that executes hands over a name that the session has prepared
from its own text. No other step calls. -/
def CallsCoherent (lib : Libpq S) (s : Postgres (S × List LibCall)) (a : Action)
    (s' : Postgres (S × List LibCall)) : Prop :=
  match a with
  | .prepare i res => ∃ q c session name, s.queries i = some q ∧ q.stage.held = some c ∧
      Calls s s' c session (.prepare name q.query res) ∧ lib.prepared session name = none
  | .exec i res => ∃ q c session name, s.queries i = some q ∧ q.stage.held = some c ∧
      Calls s s' c session (.execPrepared name q.params res) ∧
      lib.prepared session name = some q.query
  | .run _ _ | .begin _ _ _ | .getConnection _ | .freeConnection _ | .notify _ _ | .spurious _ =>
    ∀ c, s'.calls c = s.calls c

/-- A query uses its connection. -/
theorem calls_of_use {s : Postgres (S × List LibCall)} {c : Nat}
    {connection : PostgresConnection (S × List LibCall)} (hc : s.connections[c]? = some connection)
    (session : S) (call : LibCall) (list : Finset Str) (i : Nat) (q : Query) (stage : Stage) :
    Calls s ((s.setConnection c ⟨(session, connection.connection.2 ++ [call]), list⟩).setStage i q
      stage) c connection.connection.1 call := by
  refine ⟨⟨connection, hc, rfl⟩, ?_, fun c' hne => ?_⟩
  · have hlt := (List.getElem?_eq_some_iff.mp hc).1
    simp [calls, setStage, setConnection, List.getElem?_set_self hlt, hc]
  · simp [calls, setStage, setConnection, List.getElem?_set_ne (Ne.symm hne)]

/-- A new connection has seen no call. -/
theorem emplaceConnections_calls {config : Configuration} {logins : List Login}
    {s s' : Postgres (S × List LibCall)} {e : Option Thrown}
    (hs : s.emplaceConnections lib.recorded config logins = (s', e)) (c : Nat) :
    s'.calls c = s.calls c := by
  induction logins generalizing s with
  | nil =>
    obtain rfl : s = s' := congrArg Prod.fst hs
    rfl
  | cons l logins ih =>
    rw [emplaceConnections] at hs
    split at hs
    · obtain rfl : s = s' := congrArg Prod.fst hs
      rfl
    · next connection hmake =>
      have hnew : connection.connection.2 = [] := by
        rw [PostgresConnection.make] at hmake
        split at hmake
        · split at hmake
          · cases hmake
          · obtain rfl := Except.ok.inj hmake
            rfl
        · cases hmake
      refine (ih hs).trans ?_
      rcases Nat.lt_trichotomy c s.connections.length with hlt | rfl | hgt
      · simp [calls, List.getElem?_append_left hlt]
      · simp [calls, hnew]
      · simp [calls, List.getElem?_append, Nat.not_lt_of_gt hgt,
          Nat.sub_ne_zero_of_lt hgt]

theorem step_callsCoherent {s s' : Postgres (S × List LibCall)} {a : Action}
    (hg : Given lib.recorded gen T) (h : Coherent lib.recorded gen T s)
    (hs : step lib.recorded gen s a = some s') : CallsCoherent lib s a s' := by
  have hname (q : Query) : StdString.cStr (stmtName gen q.query) = stmtName gen q.query :=
    cStr_stmtName hg.uuidText q.query
  have htext {i : Nat} {q : Query} (hi : s.queries i = some q) : StdString.cStr q.query = q.query :=
    StdString.cStr_eq_self (hg.noNul q.query (h.texts i q hi))
  cases step_moves hs with
  | run =>
    intro c
    rw [run]
    split
    · rfl
    · split
      · next he => exact emplaceConnections_calls he c
      · next t ht => exact emplaceConnections_calls ht c
  | begin hi => exact fun c => rfl
  | wait | null | take | freeNull | free | notifyNone | notify | spurious => exact fun c => rfl
  | @prepared i q c r connection hi hst hc hok =>
    rw [hname, htext hi]
    exact ⟨q, c, _, _, hi, by rw [hst]; rfl, calls_of_use hc _ _ _ i q (.exec c),
      h.not_prepared hi hst hc⟩
  | @prepareFailed i q c res e connection hi hst hc he =>
    rw [hname, htext hi]
    exact ⟨q, c, _, _, hi, by rw [hst]; rfl,
      calls_of_use hc _ _ _ i q (.destructor (some c) (.error e)), h.not_prepared hi hst hc⟩
  | @exec i q c res connection hi hst hc =>
    rw [hname]
    exact ⟨q, c, _, _, hi, by rw [hst]; rfl,
      calls_of_use hc _ _ _ i q (.destructor (some c) (execOut res)), h.prepared_text hg hi hst hc⟩

/-- In every run, over a library that records its calls: the list of each connection holds the names
that its session has prepared; `PQprepare` is called for a name that the session has not prepared;
and `PQexecPrepared` executes what was prepared from the text of the query that calls it. The names
of the texts are uuids, different for different texts, and no text contains a NUL. -/
theorem statements_coherent {acts : List Action} (hlib : lib.Lawful)
    (huuid : ∀ t, UuidText (gen t))
    (hinj : ∀ query query', Used acts query → Used acts query' →
      gen query = gen query' → query = query')
    (hnul : ∀ query, Used acts query → Char.ofNat 0 ∉ query) :
    (step lib.recorded gen).Along (fun s a s' => ListsAgree lib s' ∧ CallsCoherent lib s a s')
      init acts := by
  have hg : Given lib.recorded gen (Used acts) := ⟨hlib.recorded, huuid, hinj, hnul⟩
  have hused : ∀ a ∈ acts, ∀ i query param, a = .begin i query param → Used acts query := by
    rintro a ha i query param rfl
    exact ⟨i, param, ha⟩
  refine Machine.Along.imp
    (I := fun s => s.PoolKept ∧ Coherent lib.recorded gen (Used acts) s) ?_
    ⟨init_kept, init_coherent⟩ (Machine.along_of_forall hused)
  rintro s a s' ⟨hkept, hs⟩ hstep ha
  have hs' := step_coherent hg ha hkept hs hstep
  refine ⟨⟨fun connection hmem => ?_, step_callsCoherent hg hs hstep⟩, step_kept hkept hstep, hs'⟩
  obtain ⟨c, hc⟩ := List.mem_iff_getElem?.mp hmem
  exact (hs'.inStep c connection hc).list

theorem statements_lawful : statements.Lawful where
  login _ _ := rfl
  prepare_ok s stmtName query res hres := by simp [statements, hres]
  prepare_failed s stmtName query res hres := by
    cases res with
    | none => rfl
    | some r => simp [statements, hres r rfl]
  execPrepared _ _ _ _ := rfl

theorem selectUuid_uuidText (t : Str) : UuidText (selectUuid t) := by
  have hdigits : (["221294d5".toList, "c3bb".toList, "5128".toList, "a1e0".toList,
      "e57ab1633a5b".toList].all fun g => g.all fun c => c ∈ hexDigits) = true := by decide
  refine ⟨["221294d5".toList, "c3bb".toList, "5128".toList, "a1e0".toList,
    "e57ab1633a5b".toList], rfl, fun g hg c hc => ?_, rfl⟩
  exact of_decide_eq_true (List.all_eq_true.mp (List.all_eq_true.mp hdigits g hg) c hc)

/-- The name-based uuids of the two texts below. -/
def twoUuids (text : Str) : Str :=
  if text = "SELECT 1".toList then selectUuid text
  else "7b0c3f52-12ab-5c6e-9a41-0d9c4be5f7a8".toList

theorem twoUuids_uuidText (t : Str) : UuidText (twoUuids t) := by
  rw [twoUuids]
  split
  · exact selectUuid_uuidText t
  have hdigits : (["7b0c3f52".toList, "12ab".toList, "5c6e".toList, "9a41".toList,
      "0d9c4be5f7a8".toList].all fun g => g.all fun c => c ∈ hexDigits) = true := by decide
  refine ⟨["7b0c3f52".toList, "12ab".toList, "5c6e".toList, "9a41".toList,
    "0d9c4be5f7a8".toList], rfl, fun g hg c hc => ?_, rfl⟩
  exact of_decide_eq_true (List.all_eq_true.mp (List.all_eq_true.mp hdigits g hg) c hc)

/-- On one connection a text is prepared and executed, a second one is prepared in vain, and the
first one is executed again. -/
def threeQueries : List Action :=
  startOne ++ [.begin 0 "SELECT 1".toList [], .getConnection 0,
    .prepare 0 (some commandOk), .exec 0 none, .freeConnection 0, .notify 0 none,
    .begin 1 "SELECT 2".toList [], .getConnection 1, .prepare 1 none, .freeConnection 1,
    .notify 1 none, .begin 2 "SELECT 1".toList [], .getConnection 2, .exec 2 none]

theorem statements_coherent_threeQueries :
    (∃ s, (step statements.recorded twoUuids).run init threeQueries = some s ∧
      (s.calls 0).length = 4) ∧
    (step statements.recorded twoUuids).Along
      (fun s a s' => ListsAgree statements s' ∧ CallsCoherent statements s a s') init
      threeQueries := by
  have hused : ∀ query, Used threeQueries query →
      query = "SELECT 1".toList ∨ query = "SELECT 2".toList := by
    rintro query ⟨i, param, hmem⟩
    simp [threeQueries, startOne] at hmem
    obtain ⟨-, rfl, -⟩ | ⟨-, rfl, -⟩ | ⟨-, rfl, -⟩ := hmem
    · exact .inl rfl
    · exact .inr rfl
    · exact .inl rfl
  refine ⟨⟨_, rfl, rfl⟩, statements_coherent statements_lawful twoUuids_uuidText ?_ ?_⟩
  · intro query query' hq hq' heq
    rcases hused query hq with rfl | rfl <;> rcases hused query' hq' with rfl | rfl
    · rfl
    · exact absurd heq (by decide)
    · exact absurd heq (by decide)
    · rfl
  · intro query hq
    rcases hused query hq with rfl | rfl
    · decide
    · decide

end Postgres

end FHT.DBFacade
