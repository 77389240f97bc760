import CacheReplay.Policy.Queue

set_option autoImplicit false

namespace CacheReplay

structure Fifo where
  queue : ObjectQueue Unit

namespace Fifo

def empty (capacity overhead : Nat) : Fifo := ⟨.empty capacity overhead⟩

def check (c : Fifo) (req : Request) (update : Bool) : Checked (Outcome × Fifo) := do
  let (o, q) ← c.queue.check req update fun q i => pure (q.touch i req id)
  pure (o, ⟨q⟩)

def flaw (c : Fifo) : Option Violation :=
  c.queue.slots.findSome? fun i =>
    match c.queue.store.get? i with
    | none => some (.queuedFreeCell .arrival)
    | some r => if c.queue.store.find? r.id = some i then none else some (.queuedUnindexed r.id)

instance : EvictionPolicy Fifo where
  name _ := "FIFO"
  account c := c.queue.account
  withAccount c account := ⟨{ c.queue with account }⟩
  check := check
  insert c req := do
    let (i, q) ← c.queue.push req ()
    pure (i, ⟨q⟩)
  victim c _ := pure c.queue.last
  evict c _ := do
    let (done, q) ← c.queue.dropLast
    pure (done, ⟨q⟩)
  remove c id := do
    let (done, q) ← c.queue.remove id
    pure (done, ⟨q⟩)
  audit c := c.queue.audit .arrival c.flaw
  evictable c := c.queue.account.objects

end Fifo
end CacheReplay
