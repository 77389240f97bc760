import Std.Data.HashMap
import CacheReplay.Chain
import CacheReplay.Request
import CacheReplay.Violation

set_option autoImplicit false

/-!
# Object stores

A store holds at most one live record and at most one ghost per object id. A
ghost keeps the history of an object that holds no cache space. Records stay in
their cell until they are deleted or, for a ghost, displaced by a newer ghost of
the same object.
-/
namespace CacheReplay

structure Record (μ : Type) where
  id : Nat
  size : Nat
  createTime : Int
  lastAccessTime : Int
  lastAccess : Int
  nextAccess : Option Int
  expiry : Option Int
  links : Links
  ghost : Bool
  tag : μ
  deriving Repr

namespace Record
variable {μ : Type}

instance : Linked (Record μ) where
  links := Record.links
  withLinks r l := { r with links := l }

def ofRequest (req : Request) (now : Int) (tag : μ) : Checked (Record μ) := do
  let expiry ← req.ttl.mapM (addTime req.time ·)
  pure {
    id := req.id
    size := req.size
    createTime := req.time
    lastAccessTime := req.time
    lastAccess := now
    nextAccess := req.next
    expiry
    links := .detached
    ghost := false
    tag }

def expiredAt (r : Record μ) (time : Int) : Bool := r.expiry.any (· < time)

/-- Notes an access; the stored size, expiry and creation time stay. -/
def touch (r : Record μ) (req : Request) (now : Int) : Record μ :=
  { r with lastAccessTime := req.time, lastAccess := now, nextAccess := req.next }

theorem expiredAt_iff (r : Record μ) (time : Int) :
    r.expiredAt time = true ↔ ∃ t, r.expiry = some t ∧ t < time := by
  simp [expiredAt, Option.any_eq_true]

end Record

/-- The cells of the live record and of the ghost of one object. -/
structure IndexEntry where
  live : Option Slot
  ghost : Option Slot
  deriving Repr, DecidableEq

namespace IndexEntry

def vacant : IndexEntry := ⟨none, none⟩

def isEmpty (e : IndexEntry) : Bool := e.live.isNone && e.ghost.isNone

end IndexEntry

structure Store (μ : Type) where
  records : Arena (Record μ)
  index : Std.HashMap Nat IndexEntry
  /-- How many records are live, kept apart from the index. -/
  liveCount : Nat

namespace Store
variable {μ : Type}

def empty : Store μ := ⟨.empty, ∅, 0⟩

instance : Inhabited (Store μ) := ⟨empty⟩

def size (s : Store μ) : Nat := s.liveCount

def isEmpty (s : Store μ) : Bool := s.size == 0

def ghostCount (s : Store μ) : Checked Nat := subWord s.records.size s.liveCount

def find? (s : Store μ) (id : Nat) : Option Slot := s.index[id]?.bind IndexEntry.live

def findGhost? (s : Store μ) (id : Nat) : Option Slot := s.index[id]?.bind IndexEntry.ghost

def get? (s : Store μ) (i : Slot) : Option (Record μ) := s.records.get? i

def findRecord? (s : Store μ) (id : Nat) : Option (Record μ) := (s.find? id).bind s.get?

def modify (s : Store μ) (i : Slot) (f : Record μ → Record μ) : Store μ :=
  { s with records := s.records.modify i f }

def entry (s : Store μ) (id : Nat) : IndexEntry := s.index.getD id .vacant

def insert (s : Store μ) (req : Request) (now : Int) (tag : μ) : Checked (Slot × Store μ) :=
  let e := s.entry req.id
  if e.live.isSome then throw (.alreadyCached req.id)
  else do
    let r ← Record.ofRequest req now tag
    let (i, records) := s.records.insert r
    pure (i, ⟨records, s.index.insert req.id { e with live := some i }, s.liveCount + 1⟩)

def expectSlot (indexed : Option Slot) (i : Slot) : Checked Unit :=
  if indexed = some i then pure () else throw (.misindexed indexed i)

def vacate (s : Store μ) (e : IndexEntry) (ghost : Bool) (i : Slot) : Checked (IndexEntry × Nat) :=
  if ghost then do
    expectSlot e.ghost i
    pure ({ e with ghost := none }, s.liveCount)
  else do
    expectSlot e.live i
    let liveCount ← subWord s.liveCount 1
    pure ({ e with live := none }, liveCount)

/-- Removes the record at a handle, live or ghost. An entry goes with its last record. -/
def delete (s : Store μ) (i : Slot) : Checked (Option (Record μ) × Store μ) :=
  match s.records.remove i with
  | (none, records) => pure (none, { s with records })
  | (some r, records) =>
    match s.index[r.id]? with
    | none => pure (some r, { s with records })
    | some e => do
      let (e, liveCount) ← s.vacate e r.ghost i
      let index := if e.isEmpty then s.index.erase r.id else s.index.insert r.id e
      pure (some r, ⟨records, index, liveCount⟩)

def displace (records : Arena (Record μ)) : Option Slot → Option (Record μ) × Arena (Record μ)
  | none => (none, records)
  | some i => records.remove i

/--
Turns a live record into the ghost of its object, in place. An older ghost of
the object is freed and returned.
-/
def demote (s : Store μ) (i : Slot) : Checked (Option (Record μ) × Store μ) :=
  match s.get? i with
  | none => pure (none, s)
  | some r =>
    if r.ghost then pure (none, s)
    else do
      let records := s.records.modify i fun r => { r with ghost := true }
      let liveCount ← subWord s.liveCount 1
      let e := s.entry r.id
      let (old, records) := displace records e.ghost
      pure (old, ⟨records, s.index.insert r.id ⟨none, some i⟩, liveCount⟩)

/--
Leaves a detached ghost copy of a live record behind and returns its handle. An
older ghost of the object is freed after the copy has its cell.
-/
def forkGhost (s : Store μ) (i : Slot) : Option Slot × Store μ :=
  match s.get? i with
  | none => (none, s)
  | some r =>
    if r.ghost then (none, s)
    else
      let (j, records) := s.records.insert { r with ghost := true, links := .detached }
      let e := s.entry r.id
      let (_, records) := displace records e.ghost
      (some j, { s with records, index := s.index.insert r.id { e with ghost := some j } })

def toList (s : Store μ) : List (Slot × Record μ) := s.records.toList

def liveList (s : Store μ) : List (Slot × Record μ) := s.toList.filter fun e => !e.2.ghost

def slotFlaw (s : Store μ) (id : Nat) (ghost : Bool) : Option Slot → Option Violation
  | none => none
  | some i =>
    match s.get? i with
    | none => some (.indexedFreeCell id)
    | some r => if r.id = id ∧ r.ghost = ghost then none else some (.indexedWrongRecord id)

def entryFlaw (s : Store μ) (id : Nat) (e : IndexEntry) : Option Violation :=
  if e.isEmpty then some (.emptyEntry id)
  else (s.slotFlaw id false e.live).or (s.slotFlaw id true e.ghost)

def tally (s : Store μ) : List (Nat × IndexEntry) → Nat × Nat → Audit (Nat × Nat)
  | [], n => pure n
  | (id, e) :: rest, (indexed, live) => do
    .reject (s.entryFlaw id e)
    let alive := e.live.toList.length
    s.tally rest (indexed + alive + e.ghost.toList.length, live + alive)

/-- Checks that the index, the arena and the live count describe the same records. -/
def audit (s : Store μ) : Audit Unit := do
  let (indexed, live) ← s.tally s.index.toList (0, 0)
  if indexed ≠ s.records.size ∨ live ≠ s.liveCount then
    throw (.indexSize s.records.size indexed live s.liveCount)

theorem get?_modify (s : Store μ) (i j : Slot) (f : Record μ → Record μ) :
    (s.modify i f).get? j = if i = j then (s.get? j).map f else s.get? j :=
  s.records.get?_modify i j f

end Store
end CacheReplay
