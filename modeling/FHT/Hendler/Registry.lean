import FHT.Lib.Machine
import FHT.Lib.StdMap
import FHT.Lib.StdString

/-!
# The handler registry

`Hendler` keeps two tables, `mapHendler_` and `mapList_`. Each has a working map, changed only
by tasks posted to `FHT_MAIN`, and a published copy behind a pointer that every client reads.
A client call looks its id up in the published copy and may post an update; the loop task of
the constructor publishes the working maps.

## Main definitions

- `Published` — one table: the working map and the copy behind the pointer
- `Hendler` — both tables and the updates that are posted and not yet run
- `Hendler.step` — client calls, posted updates in FIFO order and publish ticks, in any order
-/

namespace FHT

/-- A working map and its published copy: `mapHendler_` with `mapHendler_ptr`, or `mapList_`
with `mapList_ptr`. A value is the `shared_ptr` made by the call that registers it. -/
structure Published (V : Type*) where
  map : StdMap Str V
  ptr : StdMap Str V

/-- The task that a call posts to `FHT_MAIN` for one table. -/
inductive Update (V : Type*)
  | emplace (id : Str) (prt : V)
  | erase (id : Str)

namespace Update

variable {V : Type*}

/-- What the posted task does to the working map. -/
def run : Update V → StdMap Str V → StdMap Str V
  | emplace id prt, map => map.emplace id prt
  | erase id, map => map.erase id

end Update

namespace Published

variable {V : Type*}

/-- The update that an add posts: none where the published copy has the id. -/
def add (p : Published V) (id : Str) (prt : V) : Option (Update V) :=
  if id ∈ p.ptr then none else some (.emplace id prt)

/-- The update that a remove posts: none where the published copy lacks the id. -/
def remove (p : Published V) (id : Str) : Option (Update V) :=
  if id ∈ p.ptr then some (.erase id) else none

/-- The lookup of a get. -/
def get (p : Published V) (id : Str) : Option V := p.ptr[id]?

/-- One table in the loop task: a new copy where the maps differ. -/
def publish [DecidableEq V] (p : Published V) : Published V :=
  if p.ptr ≠ p.map then { p with ptr := p.map } else p

@[simp] theorem publish_ptr [DecidableEq V] (p : Published V) : p.publish.ptr = p.map := by
  rw [publish]
  split
  · rfl
  · next h => exact not_not.mp h

@[simp] theorem publish_map [DecidableEq V] (p : Published V) : p.publish.map = p.map := by
  rw [publish]
  split <;> rfl

end Published

/-- The registry: `U` are the pointers to unique handlers, `L` those of `mapList_`. `posted`
are the updates in the queue of `FHT_MAIN`, oldest first. -/
structure Hendler (U L : Type*) where
  mapHendler : Published U
  mapList : Published L
  posted : List (Update U ⊕ Update L)

namespace Hendler

variable {U L : Type*}

/-- A registry with both tables published and nothing posted. -/
def init (t : StdMap Str U × StdMap Str L) : Hendler U L :=
  ⟨⟨t.1, t.1⟩, ⟨t.2, t.2⟩, []⟩

/-- `postTask(FHT_MAIN, …)` of an update, if there is one. -/
def post (h : Hendler U L) (u : Option (Update U ⊕ Update L)) : Hendler U L :=
  { h with posted := h.posted ++ u.toList }

def addUniqueHendler (h : Hendler U L) (id : Str) (prt : U) : Hendler U L :=
  h.post ((h.mapHendler.add id prt).map .inl)

def removeUniqueHendler (h : Hendler U L) (id : Str) : Hendler U L × Bool :=
  (h.post ((h.mapHendler.remove id).map .inl), (h.mapHendler.remove id).isSome)

def getUniqueHendler (h : Hendler U L) (id : Str) : Option U := h.mapHendler.get id

def addHendler (h : Hendler U L) (id : Str) (prt : L) : Hendler U L :=
  h.post ((h.mapList.add id prt).map .inr)

def removeHendler (h : Hendler U L) (id : Str) : Hendler U L × Bool :=
  (h.post ((h.mapList.remove id).map .inr), (h.mapList.remove id).isSome)

def getHendler (h : Hendler U L) (id : Str) : Option L := h.mapList.get id

/-- The working maps. -/
def maps (h : Hendler U L) : StdMap Str U × StdMap Str L := (h.mapHendler.map, h.mapList.map)

/-- A posted update on the pair of working maps. -/
def runUpdate (t : StdMap Str U × StdMap Str L) : Update U ⊕ Update L →
    StdMap Str U × StdMap Str L
  | .inl u => (u.run t.1, t.2)
  | .inr u => (t.1, u.run t.2)

/-- `FHT_MAIN` runs the oldest posted update. -/
def runPosted (h : Hendler U L) : Option (Hendler U L) :=
  match h.posted with
  | [] => none
  | u :: rest =>
    some
      { mapHendler := { h.mapHendler with map := (runUpdate h.maps u).1 }
        mapList := { h.mapList with map := (runUpdate h.maps u).2 }
        posted := rest }

/-- One run of the loop task that the constructor posts. -/
def publish [DecidableEq U] [DecidableEq L] (h : Hendler U L) : Hendler U L :=
  { h with mapHendler := h.mapHendler.publish, mapList := h.mapList.publish }

/-- A call that changes the registry. -/
inductive Call (U L : Type*)
  | addUniqueHendler (id : Str) (prt : U)
  | removeUniqueHendler (id : Str)
  | addHendler (id : Str) (prt : L)
  | removeHendler (id : Str)

/-- The registry after a call. -/
def Call.run (h : Hendler U L) : Call U L → Hendler U L
  | addUniqueHendler id prt => h.addUniqueHendler id prt
  | removeUniqueHendler id => (h.removeUniqueHendler id).1
  | addHendler id prt => h.addHendler id prt
  | removeHendler id => (h.removeHendler id).1

/-- The value that a call returns; an add returns nothing. -/
def Call.result (h : Hendler U L) : Call U L → Option Bool
  | addUniqueHendler _ _ | addHendler _ _ => none
  | removeUniqueHendler id => some (h.removeUniqueHendler id).2
  | removeHendler id => some (h.removeHendler id).2

/-- A step of the system: a client call, or a step of `FHT_MAIN`. -/
inductive Action (U L : Type*)
  | call (c : Call U L)
  | runPosted
  | tick

variable [DecidableEq U] [DecidableEq L]

def step : Machine (Hendler U L) (Action U L)
  | h, .call c => some (c.run h)
  | h, .runPosted => h.runPosted
  | h, .tick => some h.publish

end Hendler

end FHT
