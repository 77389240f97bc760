import CacheReplay.Policy.Queue

set_option autoImplicit false

namespace CacheReplay

structure Sieve where
  queue : ObjectQueue Bool
  hand : Option Slot

namespace Sieve

def empty (capacity overhead : Nat) : Sieve := ⟨.empty capacity overhead, none⟩

def handId (c : Sieve) : Option Nat := (c.hand.bind c.queue.store.get?).map (·.id)

def visited? (c : Sieve) (id : Nat) : Option Bool := c.queue.tag? id

def start (c : Sieve) : Option Slot := c.hand.or c.queue.order.back

def advance (c : Sieve) (i : Slot) : Option Slot :=
  (c.queue.store.records.prevOf i).or c.queue.order.back

def drop (c : Sieve) (i : Slot) : Checked Sieve := do
  let hand := if c.hand = some i then c.queue.store.records.prevOf i else c.hand
  let queue ← c.queue.drop i
  pure ⟨queue, hand⟩

def check (c : Sieve) (req : Request) (update : Bool) : Checked (Outcome × Sieve) :=
  match c.queue.lookup req with
  | .missing => pure (.miss, c)
  | .expired i => do
    if update then
      let c ← c.drop i
      let account ← c.queue.account.recordExpired
      pure (.expired, { c with queue := { c.queue with account } })
    else pure (.expired, c)
  | .found i =>
    if update then pure (.hit, { c with queue := c.queue.touch i req fun _ => true })
    else pure (.hit, c)

def unvisitedFrom (c : Sieve) : Nat → Slot → Option Nat
  | 0, _ => none
  | steps + 1, i =>
    match c.queue.store.get? i with
    | some r =>
      if r.tag then (c.advance i).bind (c.unvisitedFrom steps) else some r.id
    | none => (c.advance i).bind (c.unvisitedFrom steps)

/-- When one lap meets visited objects only, the sweep comes back to its start. -/
def victim (c : Sieve) : Option Nat :=
  c.start.bind fun i =>
    (c.unvisitedFrom c.queue.order.length i).or ((c.queue.store.get? i).map (·.id))

def sweep : Nat → Sieve → Option Slot → Checked (Bool × Sieve)
  | _, c, none => pure (false, c)
  | steps, c, some i =>
    if (c.queue.store.get? i).any (·.tag) then
      match steps with
      | 0 => pure (false, c)
      | steps + 1 =>
        let c := { c with queue := { c.queue with
          store := c.queue.store.modify i fun r => { r with tag := false } } }
        let next := c.advance i
        sweep steps c next
    else do
      let hand := c.queue.store.records.prevOf i
      let queue ← c.queue.drop i
      pure (true, ⟨queue, hand⟩)

/-- One lap clears every mark, so the second lap ends at its first object. -/
def evict (c : Sieve) : Checked (Bool × Sieve) :=
  let steps := c.queue.order.length
  let start := c.start
  sweep steps c start

def flaw (c : Sieve) : Option Violation :=
  if c.hand.any fun i => !c.queue.store.records.contains i then some .strayHand else none

def remove (c : Sieve) (id : Nat) : Checked (Bool × Sieve) :=
  match c.queue.store.find? id with
  | none => pure (false, c)
  | some i => do
    let c ← c.drop i
    pure (true, c)

instance : EvictionPolicy Sieve where
  name _ := "Sieve"
  account c := c.queue.account
  withAccount c account := { c with queue := { c.queue with account } }
  check := check
  insert c req := do
    let (i, queue) ← c.queue.push req false
    pure (i, { c with queue })
  victim c _ := pure c.victim
  evict c _ := c.evict
  remove := remove
  audit c := c.queue.audit .sieve c.flaw
  evictable c := c.queue.account.objects

end Sieve
end CacheReplay
