import CacheReplay.Params
import CacheReplay.Policy.Queue

set_option autoImplicit false

namespace CacheReplay

structure Clock where
  queue : ObjectQueue Nat
  maxCount : Nat
  reinserted : Nat

namespace Clock

def ceiling (bits : Nat) : Nat := Nat.pow 2 bits - 1

def supportedBits (bits : Nat) : Bool := 1 ≤ bits && bits ≤ maxCounterBits

def withBits (capacity overhead bits : Nat) : Checked Clock :=
  if supportedBits bits then pure ⟨.empty capacity overhead, ceiling bits, 0⟩
  else throw (.counterWidth bits)

/-- One bit per object: a second chance. -/
def empty (capacity overhead : Nat) : Clock := ⟨.empty capacity overhead, 1, 0⟩

def ofParams (capacity overhead : Nat) (p : Params) : Except ConfigError Clock := do
  let (given, rest) ← (Params.takeWord "n-bit-counter").outOf p
  let bits := given.getD 1
  rest.finish "Clock"
  if supportedBits bits then pure ⟨.empty capacity overhead, ceiling bits, 0⟩
  else throw (.counterBits bits)

def count? (c : Clock) (id : Nat) : Option Nat := c.queue.tag? id

def check (c : Clock) (req : Request) (update : Bool) : Checked (Outcome × Clock) := do
  let limit := c.maxCount
  let (o, q) ← c.queue.check req update fun q i =>
    pure (q.touch i req fun count => min (count + 1) limit)
  pure (o, { c with queue := q })

def sweep (c : Clock) : List (Nat × Nat) :=
  c.queue.slotsRev.filterMap fun i => (c.queue.store.get? i).map fun r => (r.tag, r.id)

/-- Of two entries the one with the lower counter, the earlier one of equals. -/
def lower (best : Option (Nat × Nat)) (e : Nat × Nat) : Option (Nat × Nat) :=
  match best with
  | none => some e
  | some b => if e.1 < b.1 then some e else some b

/-- Every full lap lowers all counters by one, so the first least counter decides. -/
def victim (c : Clock) : Option Nat := (c.sweep.foldl lower none).map (·.2)

def scan : Nat → Clock → Checked (Bool × Clock)
  | steps, c =>
    match c.queue.order.back with
    | none => pure (false, c)
    | some i =>
      match (c.queue.store.get? i).elim 0 (·.tag) with
      | 0 => do
        let queue ← c.queue.drop i
        pure (true, { c with queue })
      | count + 1 =>
        match steps with
        | 0 => pure (false, c)
        | steps + 1 => do
          let ⟨queue, maxCount, reinserted⟩ := c
          let queue := { queue with
            store := queue.store.modify i fun r => { r with tag := count } }
          let queue ← queue.moveToFront i
          let reinserted ← addWord reinserted 1
          scan steps ⟨queue, maxCount, reinserted⟩

/-- After `maxCount` laps every counter is zero. -/
def evict (c : Clock) : Checked (Bool × Clock) :=
  let steps := c.maxCount * c.queue.order.length
  scan steps c

def flaw (c : Clock) : Option Violation :=
  c.queue.store.liveList.findSome? fun (_, r) =>
    if c.maxCount < r.tag then some (.counterAbove r.id r.tag c.maxCount) else none

instance : EvictionPolicy Clock where
  name _ := "Clock"
  account c := c.queue.account
  withAccount c account := { c with queue := { c.queue with account } }
  check := check
  insert c req := do
    let (i, queue) ← c.queue.push req 0
    pure (i, { c with queue })
  victim c _ := pure c.victim
  evict c _ := c.evict
  remove c id := do
    let (done, queue) ← c.queue.remove id
    pure (done, { c with queue })
  audit c := c.queue.audit .clock c.flaw
  evictable c := c.queue.account.objects

end Clock
end CacheReplay
