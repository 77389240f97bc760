import CacheReplay.Decimal.Positional
import CacheReplay.Floating
import CacheReplay.Policy.Contract

set_option autoImplicit false

/-!
# Adaptive replacement

Cached objects are kept in a recent list `t1` and a frequent list `t2`, and each
list remembers the objects it lost as ghosts, in `b1` and `b2`. All sizes are
byte sizes. A request that finds its object among the ghosts moves the target
size of the recent list toward the side that lost it.
-/
namespace CacheReplay

/-- The side of an object: `recent` is `t1` and `b1`, `frequent` is `t2` and `b2`. -/
inductive Tier where
  | recent
  | frequent
  deriving Repr, DecidableEq

def Tier.label : Tier → String
  | .recent => "Recent"
  | .frequent => "Frequent"

def Tier.listLabel : Tier → Bool → String
  | .recent, false => "T1"
  | .frequent, false => "T2"
  | .recent, true => "B1"
  | .frequent, true => "B2"

structure SizedChain where
  order : Chain
  bytes : Nat
  deriving Repr, DecidableEq

namespace SizedChain

def empty : SizedChain := ⟨.empty, 0⟩

def attach (l : SizedChain) (a : Arena (Record Tier)) (i : Slot) (bytes : Nat) :
    Checked (SizedChain × Arena (Record Tier)) := do
  let (order, a) := l.order.pushFront a i
  let bytes ← addWord l.bytes bytes
  pure (⟨order, bytes⟩, a)

def detach (l : SizedChain) (a : Arena (Record Tier)) (i : Slot) (bytes : Nat) :
    Checked (SizedChain × Arena (Record Tier)) := do
  let (order, a) ← l.order.unlink a i
  let bytes ← subWord l.bytes bytes
  pure (⟨order, bytes⟩, a)

end SizedChain

structure Arc where
  account : Account
  store : Store Tier
  t1 : SizedChain
  t2 : SizedChain
  b1 : SizedChain
  b2 : SizedChain
  target : Float
  /-- The side on whose ghost list the current request found its object. -/
  ghostHit : Option Tier

namespace Arc

def empty (capacity overhead : Nat) : Arc :=
  ⟨.empty capacity overhead, .empty, .empty, .empty, .empty, .empty, 0, none⟩

def list (c : Arc) : Tier → Bool → SizedChain
  | .recent, false => c.t1
  | .frequent, false => c.t2
  | .recent, true => c.b1
  | .frequent, true => c.b2

def withList (c : Arc) (l : SizedChain) : Tier → Bool → Arc
  | .recent, false => { c with t1 := l }
  | .frequent, false => { c with t2 := l }
  | .recent, true => { c with b1 := l }
  | .frequent, true => { c with b2 := l }

def attach (c : Arc) (tier : Tier) (ghost : Bool) (i : Slot) (bytes : Nat) : Checked Arc := do
  let (l, records) ← (c.list tier ghost).attach c.store.records i bytes
  pure ({ c with store := { c.store with records } }.withList l tier ghost)

def detach (c : Arc) (tier : Tier) (ghost : Bool) (i : Slot) (bytes : Nat) : Checked Arc := do
  let (l, records) ← (c.list tier ghost).detach c.store.records i bytes
  pure ({ c with store := { c.store with records } }.withList l tier ghost)

def tierOf? (c : Arc) (id : Nat) : Option (Tier × Bool) :=
  (((c.store.find? id).or (c.store.findGhost? id)).bind c.store.get?).map fun r => (r.tag, r.ghost)

def drop (c : Arc) (i : Slot) : Checked Arc := do
  match c.store.get? i with
  | none => pure c
  | some r =>
    let bytes ← c.account.footprint r.size
    let c ← c.detach r.tag r.ghost i bytes
    let (_, store) ← c.store.delete i
    let account ← if r.ghost then pure c.account else c.account.release r.size
    pure { c with store, account }

def dropLastGhost (c : Arc) (tier : Tier) : Checked Arc :=
  match (c.list tier true).order.back with
  | none => pure c
  | some i => c.drop i

def demoteLast (c : Arc) (tier : Tier) : Checked Arc := do
  match (c.list tier false).order.back with
  | none => pure c
  | some i =>
    match c.store.get? i with
    | none => pure c
    | some r =>
      let c ← match c.store.findGhost? r.id with
        | none => pure c
        | some old => c.drop old
      let bytes ← c.account.footprint r.size
      let c ← c.detach tier false i bytes
      let c ← c.attach tier true i bytes
      let (_, store) ← c.store.demote i
      let account ← c.account.release r.size
      pure { c with store, account }

/-- The side that gives up an object: the recent one when it is over its target. -/
def replaced (c : Arc) : Tier :=
  let t1 := Floating.ofNat c.t1.bytes
  let overTarget := t1 > c.target || (t1 == c.target && c.ghostHit = some .frequent)
  if (0 < c.t1.bytes && overTarget) || c.t2.bytes = 0 then .recent else .frequent

def replace (c : Arc) : Checked Arc := c.demoteLast c.replaced

def recentFull (c : Arc) (size : Nat) : Checked Bool := do
  let known ← addWord c.t1.bytes c.b1.bytes
  let bytes ← c.account.footprint size
  let wanted ← addWord known bytes
  pure (decide (c.account.capacity < wanted))

def directoryFull (c : Arc) : Checked Bool := do
  let sum ← addWord c.t1.bytes c.t2.bytes
  let sum ← addWord sum c.b1.bytes
  let sum ← addWord sum c.b2.bytes
  let limit ← mulWord 2 c.account.capacity
  pure (decide (limit ≤ sum))

/-- One replacement step for a missed object of the given size. -/
def step (c : Arc) (size : Nat) : Checked Arc := do
  if c.ghostHit.isSome then c.replace
  else
    let full ← c.recentFull size
    if full then
      if 0 < c.b1.bytes then
        let c ← c.dropLastGhost .recent
        c.replace
      else
        match c.t1.order.back with
        | some i => c.drop i
        | none => c.replace
    else
      let full ← c.directoryFull
      let c ← if full && 0 < c.b2.bytes then c.dropLastGhost .frequent else pure c
      c.replace

def adapted (c : Arc) (tier : Tier) : Float :=
  let b1 := Floating.ofNat c.b1.bytes
  let b2 := Floating.ofNat c.b2.bytes
  match tier with
  | .recent => Floating.min (c.target + Floating.max (b2 / b1) 1) (Floating.ofNat c.account.capacity)
  | .frequent => Floating.max (c.target - Floating.max (b1 / b2) 1) 0

def promote (c : Arc) (i : Slot) (r : Record Tier) (req : Request) : Checked Arc := do
  let bytes ← c.account.footprint r.size
  let now := c.account.now
  let c := { c with store := c.store.modify i fun r =>
    { r.touch req now with tag := .frequent } }
  match r.tag with
  | .recent =>
    let c ← c.detach .recent false i bytes
    c.attach .frequent false i bytes
  | .frequent =>
    let (order, records) ← c.t2.order.moveToFront c.store.records i
    pure { c with store := { c.store with records }, t2 := { c.t2 with order } }

def checkLive (c : Arc) (i : Slot) (r : Record Tier) (req : Request) (update : Bool) :
    Checked (Outcome × Arc) := do
  if r.expiredAt req.time then
    if update then
      let c ← c.drop i
      let account ← c.account.recordExpired
      pure (.expired, { c with account })
    else pure (.expired, c)
  else
    let c ← if update then c.promote i r req else pure c
    pure (.hit, c)

def revive (c : Arc) (i : Slot) (r : Record Tier) : Checked Arc :=
  { c with ghostHit := some r.tag, target := c.adapted r.tag }.drop i

def check (c : Arc) (req : Request) (update : Bool) : Checked (Outcome × Arc) := do
  let c := if update then { c with ghostHit := none } else c
  match c.store.find? req.id with
  | some i =>
    match c.store.get? i with
    | none => pure (.miss, c)
    | some r => c.checkLive i r req update
  | none =>
    if update then
      match c.store.findGhost? req.id with
      | none => pure (.miss, c)
      | some i =>
        match c.store.get? i with
        | none => pure (.miss, c)
        | some r => do
          let c ← c.revive i r
          pure (.miss, c)
    else pure (.miss, c)

def insert (c : Arc) (req : Request) : Checked (Slot × Arc) := do
  let bytes ← c.account.footprint req.size
  let tier := if c.ghostHit.isSome then Tier.frequent else .recent
  let (i, store) ← c.store.insert req c.account.now tier
  let c ← { c with store, ghostHit := none }.attach tier false i bytes
  let account ← c.account.charge req.size
  pure (i, { c with account })

def lastOf (c : Arc) (tier : Tier) : Option Nat :=
  ((c.list tier false).order.back.bind c.store.get?).map (·.id)

/-- The object that one replacement step would drop. -/
def victim (c : Arc) (req : Request) : Checked (Option Nat) := do
  if c.ghostHit.isSome then pure (c.lastOf c.replaced)
  else
    let full ← c.recentFull req.size
    if full && c.b1.bytes = 0 then pure (c.lastOf .recent) else pure (c.lastOf c.replaced)

def evict (c : Arc) (req : Request) : Checked (Bool × Arc) := do
  let before := c.account.objects
  let c ← c.step req.size
  pure (decide (c.account.objects < before), c)

def remove (c : Arc) (id : Nat) : Checked (Bool × Arc) := do
  match c.store.find? id with
  | none => pure (false, c)
  | some i =>
    let c ← c.drop i
    pure (true, c)

def auditSlots (c : Arc) (tier : Tier) (ghost : Bool) : Nat → List Slot → Audit Nat
  | sum, [] => pure sum
  | sum, i :: rest => do
    match c.store.get? i with
    | none => throw (.tierFreeCell (tier.listLabel ghost))
    | some r =>
      if r.tag ≠ tier ∨ r.ghost ≠ ghost then
        throw (.tierTag r.id (tier.listLabel ghost) r.tag.label r.ghost)
      let bytes ← c.account.footprint r.size
      let sum ← addWord sum bytes
      auditSlots c tier ghost sum rest

def auditList (c : Arc) (tier : Tier) (ghost : Bool) : Audit Nat := do
  let l := c.list tier ghost
  let slots := l.order.toList c.store.records
  let sum ← c.auditSlots tier ghost 0 slots
  if sum ≠ l.bytes then throw (.tierBytes (tier.listLabel ghost) l.bytes sum)
  pure slots.length

def audit (c : Arc) : Audit Unit := do
  let n1 ← c.auditList .recent false
  let n2 ← c.auditList .frequent false
  let g1 ← c.auditList .recent true
  let g2 ← c.auditList .frequent true
  if n1 + n2 + g1 + g2 ≠ c.store.toList.length then throw .unlisted
  let sum ← addWord c.t1.bytes c.t2.bytes
  if sum ≠ c.account.occupied then throw (.tierSum sum c.account.occupied)
  if !(0 ≤ c.target && c.target ≤ Floating.ofNat c.account.capacity) then
    throw (.targetRange (Decimal.positional c.target))
  c.account.audit c.store

instance : EvictionPolicy Arc where
  name _ := "ARC"
  account := account
  withAccount c account := { c with account }
  check := check
  insert := insert
  victim c req := c.victim req
  evict := evict
  remove := remove
  audit := audit
  evictable c := c.account.objects

end Arc
end CacheReplay
