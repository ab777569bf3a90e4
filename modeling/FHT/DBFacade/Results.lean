import FHT.DBFacade.Pool

/-!
# What a query returns

`Query` returns one map, for the values of a table and for the report of an error alike. Its keys
are the field names of the table, which the server chooses.

## Main definitions

- `IDBConnect.Query` — the map for what the facade answered
- `Outcome` — how a query ended, read off its calls of `libpq`
- `PGresult.Read` — the map holds the table

## Main results

- `PGresult.read_out` — every table is read as it is
- `Postgres.results_faithful_iff` — in every run the map tells how the query ended, unless a table
  has a field that is named `error`
-/

namespace FHT.DBFacade

/-- `iDBConnect::Query`, for what `query` did: it has filled the map, or thrown. `read` is what
the handler finds at the pointer that was thrown; at a null pointer the construction of a string
throws out of the handler. -/
def IDBConnect.Query (read : Str → Str) :
    Except Thrown ReturnQuery → Except Thrown ReturnQuery
  | .ok result => .ok result
  | .error (.cString e) => .ok (StdMap.emplace ∅ "error".toList [read e])
  | .error .nullCString => .error .nullString
  | .error _ => .ok (StdMap.emplace ∅ "error".toList ["unknown".toList])

/-- The map has the field names as its keys, and for each of them the values in the first column
of that name, row by row. -/
structure PGresult.Read (res : PGresult) (m : ReturnQuery) : Prop where
  keys : ∀ name, name ∈ m ↔ name ∈ res.fnames
  values : ∀ name ∈ res.fnames, ∃ vs : List Str, m[name]? = some vs ∧
    vs.length = res.rows.length ∧
    ∀ j : Nat, vs[j]? = res.rows[j]?.bind fun row => row[res.fnames.idxOf name]?

/-- `PQprepare` prepared the statement. -/
def prepareOk (res : Option PGresult) : Bool := res.any fun r => r.status = .PGRES_COMMAND_OK

/-- `PQexecPrepared` executed the statement. -/
def PGresult.execOk (res : PGresult) : Bool :=
  res.status = .PGRES_TUPLES_OK ∨ res.status = .PGRES_COMMAND_OK

/-- How a query ended. -/
inductive Outcome
  | notRunning
  | noConnection
  | prepareFailed (res : Option PGresult)
  | execFailed (res : Option PGresult)
  | table (res : PGresult)

def Outcome.failed : Outcome → Bool
  | .table _ => false
  | .notRunning | .noConnection | .prepareFailed _ | .execFailed _ => true

/-- The map tells a failure from a result, and holds the result. -/
def Outcome.Faithful (o : Outcome) (m : ReturnQuery) : Prop :=
  ("error".toList ∈ m ↔ o.failed = true) ∧ ∀ res, o = .table res → res.rows ≠ [] → res.Read m

/-- A table that is not empty has a field named `error`. -/
def Outcome.HasErrorField (o : Outcome) : Prop :=
  ∃ res, o = .table res ∧ res.rows ≠ [] ∧ "error".toList ∈ res.fnames

/-- What `query_private` answers for the outcome. It throws no null pointer. -/
def Outcome.Answers (o : Outcome) (out : Except Thrown ReturnQuery) : Prop :=
  match o with
  | .table res => out = .ok res.out
  | .notRunning | .noConnection | .prepareFailed _ | .execFailed _ =>
    ∃ e, out = .error e ∧ e ≠ .nullCString

theorem lookup_zipIdx {α β : Type*} [BEq α] [LawfulBEq α] (l : List α) (f : Nat → β) (k : Nat)
    (a : α) : ((l.zipIdx k).map fun p => (p.1, f p.2)).lookup a =
      if a ∈ l then some (f (l.idxOf a + k)) else none := by
  induction l generalizing k with
  | nil => rfl
  | cons b l ih =>
    rw [List.zipIdx_cons, List.map_cons, List.lookup_cons, List.idxOf_cons]
    by_cases hab : a = b
    · subst hab
      simp
    · have hne : (a == b) = false := by simpa using hab
      have hne' : (b == a) = false := by simpa using Ne.symm hab
      simp only [hne, hne', ih, List.mem_cons, hab, false_or, cond_false]
      congr 3
      omega

/-- A key of the map is the name of a field, of a table that is not empty. -/
theorem PGresult.getElem?_out (res : PGresult) (h : res.rows ≠ []) (name : Str) :
    res.out[name]? = if name ∈ res.fnames then
      some (res.rows.map fun row => row.getD (res.fnames.idxOf name) []) else none := by
  rw [PGresult.out, if_neg (mt List.length_eq_zero_iff.mp h), StdMap.getElem?_emplaceAll]
  exact (lookup_zipIdx res.fnames (fun i => res.rows.map fun row => row.getD i []) 0 name)

theorem PGresult.read_out (res : PGresult) (h : res.rows ≠ []) : res.Read res.out where
  keys name := by
    rw [StdMap.mem_iff_getElem?_ne_none, res.getElem?_out h]
    simp
  values name hname := by
    refine ⟨_, (res.getElem?_out h name).trans (if_pos hname), List.length_map .., fun j => ?_⟩
    rw [List.getElem?_map]
    cases hrow : res.rows[j]? with
    | none => rfl
    | some row =>
      -- every row has a value for every field
      have hlt : res.fnames.idxOf name < row.length := by
        rw [res.rows_length row (List.mem_of_getElem? hrow)]
        exact List.idxOf_lt_length_of_mem hname
      simp [List.getElem?_eq_getElem hlt]

theorem PGresult.out_of_rows_nil {res : PGresult} (h : res.rows = []) : res.out = ∅ := by
  rw [PGresult.out, if_pos (List.length_eq_zero_iff.mpr h)]

theorem error_mem_emplace (value : List Str) :
    "error".toList ∈ StdMap.emplace (∅ : ReturnQuery) "error".toList value := by
  rw [StdMap.mem_iff_getElem?_ne_none]
  simp [StdMap.getElem?_emplace]

/-- The handlers report every error but a null pointer. -/
theorem error_mem_Query (read : Str → Str) {e : Thrown} (he : e ≠ .nullCString) :
    ∃ m, IDBConnect.Query read (.error e) = .ok m ∧ "error".toList ∈ m := by
  cases e with
  | cString s => exact ⟨_, rfl, error_mem_emplace _⟩
  | nullCString => exact absurd rfl he
  | exception | string | other => exact ⟨_, rfl, error_mem_emplace _⟩

/-- A map is returned, and it is faithful unless a field takes the key of the errors. -/
theorem Outcome.faithful_iff {o : Outcome} {out : Except Thrown ReturnQuery} (h : o.Answers out)
    (read : Str → Str) : ∃ m, IDBConnect.Query read out = .ok m ∧
      (o.Faithful m ↔ ¬ o.HasErrorField) := by
  cases o with
  | table res =>
    obtain rfl : out = .ok res.out := h
    refine ⟨res.out, rfl, ?_⟩
    constructor
    · rintro ⟨herror, hread⟩ ⟨res', hres, hrows, hmem⟩
      obtain rfl := Outcome.table.inj hres
      exact Bool.false_ne_true (herror.mp (((hread res rfl hrows).keys _).mpr hmem))
    · intro hfield
      refine ⟨⟨fun hmem => absurd ?_ hfield, nofun⟩, ?_⟩
      · have hrows : res.rows ≠ [] := by
          intro hnil
          rw [PGresult.out_of_rows_nil hnil] at hmem
          exact absurd hmem Std.ExtTreeMap.not_mem_empty
        exact ⟨res, rfl, hrows, ((res.read_out hrows).keys _).mp hmem⟩
      · rintro res' hres hrows
        obtain rfl := Outcome.table.inj hres
        exact res.read_out hrows
  | notRunning | noConnection | prepareFailed | execFailed =>
    obtain ⟨e, rfl, he⟩ := h
    obtain ⟨m, hm, hmem⟩ := error_mem_Query read he
    refine ⟨m, hm, iff_of_true ⟨iff_of_true hmem rfl, nofun⟩ ?_⟩
    rintro ⟨res, hres, -⟩
    cases hres

/-- What a call has decided to return. -/
def Stage.answer : Stage → Option (Except Thrown ReturnQuery)
  | .destructor _ out | .notify out | .returned out => some out
  | .getConnection | .waiting | .prepare _ | .exec _ => none

namespace Postgres

variable {S : Type*}

/-- What a step decides about its query. -/
def decision (s : Postgres S) : Action → List Outcome
  | .begin _ _ _ => if s.isRun then [] else [.notRunning]
  | .getConnection _ => if s.poolConn.head? = some none then [.noConnection] else []
  | .prepare _ res => if prepareOk res then [] else [.prepareFailed res]
  | .exec _ none => [.execFailed none]
  | .exec _ (some res) => if res.execOk then [.table res] else [.execFailed (some res)]
  | .run _ _ | .freeConnection _ | .notify _ _ | .spurious _ => []

/-- What a step decides about the query `i`. -/
def outcome (i : Nat) (s : Postgres S) (a : Action) : List Outcome :=
  if a.query = some i then s.decision a else []

/-- The one answer, if there is one, is for the one decision. -/
def Settles (answer : Option (Except Thrown ReturnQuery)) (os : List Outcome) : Prop :=
  match answer with
  | none => os = []
  | some out => ∃ o, os = [o] ∧ o.Answers out

/-- The call `i` answers what was decided about it. -/
def Decided (i : Nat) (os : List Outcome) (s : Postgres S) : Prop :=
  Settles ((s.queries i).bind fun q => q.stage.answer) os

theorem decided_of_query {s : Postgres S} {i : Nat} {q : Query} (h : s.queries i = some q)
    (os : List Outcome) : Decided i os s ↔ Settles q.stage.answer os := by
  rw [Decided, h]
  rfl

theorem decided_setStage (s : Postgres S) (i : Nat) (q : Query) (stage : Stage)
    (os : List Outcome) : Decided i os (s.setStage i q stage) ↔ Settles stage.answer os :=
  decided_of_query ((setStage_queries ..).trans (if_pos rfl)) os

theorem prepareOk_of_error {res : Option PGresult} {e : Thrown} (h : prepareError res = some e) :
    prepareOk res = false := by
  cases res with
  | none => rfl
  | some r =>
    refine decide_eq_false fun hok => ?_
    rw [prepareError, if_neg (not_not.mpr hok)] at h
    cases h

theorem prepareError_ne_nullCString {res : Option PGresult} {e : Thrown}
    (h : prepareError res = some e) : e ≠ .nullCString := by
  rintro rfl
  cases res with
  | none => cases h
  | some r =>
    rw [prepareError] at h
    split at h <;> cases h

theorem decision_exec (s : Postgres S) (i : Nat) (res : Option PGresult) :
    Settles (some (execOut res)) (s.decision (.exec i res)) := by
  cases res with
  | none => exact ⟨_, rfl, _, rfl, nofun⟩
  | some r =>
    rw [execOut, decision]
    cases hok : r.execOk with
    | true =>
      have hstatus := of_decide_eq_true hok
      rw [if_neg (by tauto)]
      exact ⟨_, rfl, rfl⟩
    | false =>
      have hstatus := not_or.mp (of_decide_eq_false hok)
      rw [if_pos hstatus]
      exact ⟨_, rfl, _, rfl, nofun⟩

variable {lib : Libpq S} {gen : Str → Str}

/-- A decision is made by the step that has the answer. -/
theorem Moves.decided {s s' : Postgres S} {a : Action} (h : s.Moves lib gen a s') {i : Nat}
    {os : List Outcome} (hs : Decided i os s) : Decided i (os ++ outcome i s a) s' := by
  by_cases ha : a.query = some i
  · rw [outcome, if_pos ha]
    cases h with
    | run => cases ha
    | begin hi =>
      obtain rfl := Option.some.inj ha
      obtain rfl : os = [] := by simpa [Decided, hi, Settles] using hs
      rw [decided_setStage, decision]
      cases s.isRun with
      | true => rfl
      | false => exact ⟨.notRunning, rfl, _, rfl, nofun⟩
    | wait hi hst hp =>
      obtain rfl := Option.some.inj ha
      rw [decided_of_query hi, hst] at hs
      obtain rfl : os = [] := hs
      rw [decided_setStage, decision, hp]
      rfl
    | null hi hst hp =>
      obtain rfl := Option.some.inj ha
      rw [decided_of_query hi, hst] at hs
      obtain rfl : os = [] := hs
      rw [decided_setStage, decision, hp]
      exact ⟨_, rfl, _, rfl, nofun⟩
    | take hi hst hp hc =>
      obtain rfl := Option.some.inj ha
      rw [decided_of_query hi, hst] at hs
      obtain rfl : os = [] := hs
      rw [decided_setStage, decision, hp]
      split <;> rfl
    | prepared hi hst hc hok =>
      obtain rfl := Option.some.inj ha
      rw [decided_of_query hi, hst] at hs
      obtain rfl : os = [] := hs
      have hprepared : prepareOk (some _) = true := decide_eq_true hok
      rw [decided_setStage, decision, hprepared]
      rfl
    | prepareFailed hi hst hc he =>
      obtain rfl := Option.some.inj ha
      rw [decided_of_query hi, hst] at hs
      obtain rfl : os = [] := hs
      rw [decided_setStage, decision, prepareOk_of_error he]
      exact ⟨_, rfl, _, rfl, prepareError_ne_nullCString he⟩
    | exec hi hst =>
      obtain rfl := Option.some.inj ha
      rw [decided_of_query hi, hst] at hs
      obtain rfl : os = [] := hs
      rw [decided_setStage]
      exact decision_exec s _ _
    | freeNull hi hst | free hi hst | notifyNone hi hst | spurious hi hst =>
      obtain rfl := Option.some.inj ha
      rw [decided_of_query hi, hst] at hs
      rw [decided_setStage, decision, List.append_nil]
      exact hs
    | @notify i j q q' out hi hst hji hj hst' =>
      obtain rfl := Option.some.inj ha
      rw [decided_of_query hi, hst] at hs
      have hi' := (setStage_queries { s.setStage i q (.returned out) with
        waiters := s.waiters.erase j } j q' .getConnection i).trans
        ((if_neg hji.symm).trans ((setStage_queries ..).trans (if_pos rfl)))
      rw [decided_of_query hi', decision, List.append_nil]
      exact hs
  · rw [outcome, if_neg ha, List.append_nil]
    rcases h.queries_of_ne ha with hsame | ⟨q, hi, hst, hi'⟩
    · rwa [Decided, hsame]
    · rw [decided_of_query hi, hst] at hs
      rwa [decided_of_query hi']

/-- In every run a query returns a map, which tells how the query ended, and holds the table if
there is one, exactly if no table that is not empty has a field named `error`. -/
theorem results_faithful_iff {acts : List Action} {s : Postgres S} {i : Nat} {q : Query}
    {out : Except Thrown ReturnQuery} (read : Str → Str)
    (hrun : (step lib gen).run init acts = some s) (hi : s.queries i = some q)
    (hst : q.stage = .returned out) :
    ∃ o m, (step lib gen).observe (outcome i) init acts = [o] ∧
      IDBConnect.Query read out = .ok m ∧ (o.Faithful m ↔ ¬ o.HasErrorField) := by
  have hdecided : Decided i ((step lib gen).observe (outcome i) init acts) s :=
    Machine.run_observed (I := Decided i) (fun _ _ _ _ h hs => (step_moves hs).decided h) rfl hrun
  rw [decided_of_query hi, hst] at hdecided
  obtain ⟨o, ho, hanswers⟩ := hdecided
  obtain ⟨m, hm, hiff⟩ := Outcome.faithful_iff hanswers read
  exact ⟨o, m, ho, hm, hiff⟩

/-- The table for `SELECT 1 AS name`. -/
def selected (name : Str) : PGresult where
  status := .PGRES_TUPLES_OK
  errorMessage := []
  fnames := [name]
  rows := [["1".toList]]
  rows_length := by simp

/-- The query is prepared and executed. -/
def selectOne (name : Str) : List Action := startOne ++
  [.begin 0 ("SELECT 1 AS ".toList ++ name) [], .getConnection 0,
    .prepare 0 (some commandOk), .exec 0 (some (selected name)), .freeConnection 0, .notify 0 none]

theorem results_faithful_one : ∃ s q out,
    (step statements selectUuid).run init (selectOne "one".toList) = some s ∧
    s.queries 0 = some q ∧ q.stage = .returned out ∧
    ∃ o m, (step statements selectUuid).observe (outcome 0) init (selectOne "one".toList) = [o] ∧
      IDBConnect.Query id out = .ok m ∧ (o.Faithful m ↔ ¬ o.HasErrorField) :=
  ⟨_, _, _, rfl, rfl, rfl, results_faithful_iff id
    (rfl : (step statements selectUuid).run init (selectOne "one".toList) = some _) rfl rfl⟩

/-- `SELECT 1 AS error` succeeds, and its map says that it failed. -/
theorem error_field_is_failure : ∃ s q out m,
    (step statements selectUuid).run init (selectOne "error".toList) = some s ∧
    s.queries 0 = some q ∧ q.stage = .returned out ∧
    (step statements selectUuid).observe (outcome 0) init (selectOne "error".toList) =
      [.table (selected "error".toList)] ∧
    IDBConnect.Query id out = .ok m ∧ "error".toList ∈ m := by
  refine ⟨_, _, _, _, rfl, rfl, rfl, rfl, rfl, ?_⟩
  exact (((selected "error".toList).read_out (List.cons_ne_nil _ _)).keys _).mpr
    List.mem_cons_self

end Postgres

end FHT.DBFacade
