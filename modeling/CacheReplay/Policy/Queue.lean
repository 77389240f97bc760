import CacheReplay.Policy.Contract

set_option autoImplicit false

namespace CacheReplay

structure ObjectQueue (μ : Type) where
  account : Account
  store : Store μ
  order : Chain

inductive Lookup where
  | found (i : Slot)
  | expired (i : Slot)
  | missing
  deriving Repr, DecidableEq

namespace ObjectQueue
variable {μ : Type}

def empty (capacity overhead : Nat) : ObjectQueue μ :=
  ⟨.empty capacity overhead, .empty, .empty⟩

def lookup (q : ObjectQueue μ) (req : Request) : Lookup :=
  match q.store.find? req.id with
  | none => .missing
  | some i =>
    match q.store.get? i with
    | none => .missing
    | some r => if r.expiredAt req.time then .expired i else .found i

def slots (q : ObjectQueue μ) : List Slot := q.order.toList q.store.records

def slotsRev (q : ObjectQueue μ) : List Slot := q.order.toListRev q.store.records

def ids (q : ObjectQueue μ) : List Nat := q.slots.filterMap fun i => (q.store.get? i).map (·.id)

def last (q : ObjectQueue μ) : Option Nat :=
  (q.order.back.bind q.store.get?).map (·.id)

def tag? (q : ObjectQueue μ) (id : Nat) : Option μ := (q.store.findRecord? id).map (·.tag)

def drop (q : ObjectQueue μ) (i : Slot) : Checked (ObjectQueue μ) := do
  let ⟨account, store, order⟩ := q
  let (order, records) ← order.unlink store.records i
  let (gone, store) ← { store with records }.delete i
  let account ← match gone with
    | none => pure account
    | some r => account.release r.size
  pure ⟨account, store, order⟩

def expire (q : ObjectQueue μ) (i : Slot) : Checked (ObjectQueue μ) := do
  let q ← q.drop i
  let account ← q.account.recordExpired
  pure { q with account }

def touch (q : ObjectQueue μ) (i : Slot) (req : Request) (f : μ → μ) : ObjectQueue μ :=
  { q with store := q.store.modify i fun r =>
      let r := r.touch req q.account.now
      { r with tag := f r.tag } }

def moveToFront (q : ObjectQueue μ) (i : Slot) : Checked (ObjectQueue μ) := do
  let ⟨account, store, order⟩ := q
  let (order, records) ← order.moveToFront store.records i
  pure ⟨account, { store with records }, order⟩

def push (q : ObjectQueue μ) (req : Request) (tag : μ) : Checked (Slot × ObjectQueue μ) := do
  let ⟨account, store, order⟩ := q
  let (i, store) ← store.insert req account.now tag
  let (order, records) := order.pushFront store.records i
  let account ← account.charge req.size
  pure (i, ⟨account, { store with records }, order⟩)

def check (q : ObjectQueue μ) (req : Request) (update : Bool)
    (onHit : ObjectQueue μ → Slot → Checked (ObjectQueue μ)) : Checked (Outcome × ObjectQueue μ) :=
  match q.lookup req with
  | .missing => pure (.miss, q)
  | .expired i => do
    let q ← if update then q.expire i else pure q
    pure (.expired, q)
  | .found i => do
    let q ← if update then onHit q i else pure q
    pure (.hit, q)

def dropLast (q : ObjectQueue μ) : Checked (Bool × ObjectQueue μ) :=
  match q.order.back with
  | none => pure (false, q)
  | some i => do
    let q ← q.drop i
    pure (true, q)

def remove (q : ObjectQueue μ) (id : Nat) : Checked (Bool × ObjectQueue μ) :=
  match q.store.find? id with
  | none => pure (false, q)
  | some i => do
    let q ← q.drop i
    pure (true, q)

/--
Checks that the queue is as long as the store, then applies a check of the
policy's own, then audits the account and the store.
-/
def audit (q : ObjectQueue μ) (kind : QueueKind) (flaw : Option Violation) : Audit Unit := do
  if q.order.length ≠ q.store.size then
    throw (.queueLength kind q.order.length q.store.size)
  .reject flaw
  q.account.audit q.store

theorem check_false (q : ObjectQueue μ) (req : Request)
    (onHit : ObjectQueue μ → Slot → Checked (ObjectQueue μ)) :
    ∃ o, q.check req false onHit = .ok (o, q) := by
  unfold check
  split
  · exact ⟨_, rfl⟩
  · exact ⟨_, rfl⟩
  · exact ⟨_, rfl⟩

end ObjectQueue
end CacheReplay
