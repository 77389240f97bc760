import CacheReplay.Policy.Queue

set_option autoImplicit false

namespace CacheReplay

structure Lru where
  queue : ObjectQueue Unit

namespace Lru

def empty (capacity overhead : Nat) : Lru := ⟨.empty capacity overhead⟩

def recencyOrder (c : Lru) : List Nat := c.queue.ids

def check (c : Lru) (req : Request) (update : Bool) : Checked (Outcome × Lru) := do
  let (o, q) ← c.queue.check req update fun q i => (q.touch i req id).moveToFront i
  pure (o, ⟨q⟩)

/-- The first listed record, after one accessed at `latest`, that was accessed later. -/
def disorder (s : Store Unit) : Option Int → List Slot → Option Violation
  | _, [] => none
  | latest, i :: rest =>
    match s.get? i with
    | none => some (.queuedFreeCell .recency)
    | some r =>
      if latest.any (· < r.lastAccess) then some (.recencyOrder r.id)
      else disorder s (some r.lastAccess) rest

instance : EvictionPolicy Lru where
  name _ := "LRU"
  account c := c.queue.account
  withAccount c account := ⟨{ c.queue with account }⟩
  check := check
  insert c req := do
    let (i, q) ← c.queue.push req ()
    pure (i, ⟨q⟩)
  victim c _ := pure c.queue.last
  evict c _ := do
    let (done, q) ← c.queue.dropLast
    pure (done, ⟨q⟩)
  remove c id := do
    let (done, q) ← c.queue.remove id
    pure (done, ⟨q⟩)
  audit c := c.queue.audit .recency (disorder c.queue.store none c.queue.slots)
  evictable c := c.queue.account.objects

end Lru
end CacheReplay
