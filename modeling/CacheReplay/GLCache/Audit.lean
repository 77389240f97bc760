import CacheReplay.GLCache.Cache

set_option autoImplicit false

namespace CacheReplay.GLCache

structure Walked where
  segments : Nat
  objects : Nat
  last : Option Slot

def Walked.total (f : Walked → Nat) (ws : List Walked) : Nat := ws.foldl (fun n w => n + f w) 0

namespace Contents

def auditObjects (c : Contents) (i : Slot) (s : Segment) : Audit (List (Record ObjectTag)) :=
  s.objects.toList.mapM fun j =>
    match c.store.get? j with
    | some r =>
      if !r.ghost && r.tag.segment == i then pure r else throw (.foreignObject s.id)
    | none => throw (.foreignObject s.id)

def auditSegment (c : Contents) (i : Slot) (s : Segment) : Audit Unit := do
  if c.table.segmentSize < s.objects.size then
    throw (.segmentOverfull s.id s.objects.size c.table.segmentSize)
  let rs ← c.auditObjects i s
  let bytes ← c.account.footprints rs
  let active := rs.countP (·.tag.active)
  if bytes ≠ s.bytes ∨ active ≠ s.active then
    throw (.segmentTotals s.id s.bytes s.active bytes active)

/-- Follows a chain from `cur` on; `left` bounds the segments that may follow. -/
def auditFrom (c : Contents) (k : Nat) : Nat → Option Slot → Option Slot → Audit Walked
  | _, before, none => pure ⟨0, 0, before⟩
  | left, before, some i =>
    match c.table.get? i with
    | none => throw (.bucketFreeCell k)
    | some s => do
      if s.bucket ≠ k ∨ s.links.prev ≠ before then throw (.mislinked s.id k)
      if k ≠ quarantine then c.auditSegment i s
      match left with
      | 0 => throw (.bucketCycle k)
      | left + 1 =>
        let w ← c.auditFrom k left (some i) s.links.next
        pure { w with segments := w.segments + 1, objects := w.objects + s.objects.size }

def auditBucket (c : Contents) (k : Nat) : Audit Walked := do
  let chain := (c.table.bucket k).chain
  let w ← c.auditFrom k c.table.segments.size none chain.front
  if w.segments ≠ chain.length ∨ w.last ≠ chain.back then
    throw (.bucketCount k chain.length w.segments)
  pure w

def rankFlaw (t : Table) : Option Violation :=
  t.ranking.slots.toList.zipIdx.findSome? fun (slot, rank) =>
    slot.bind fun i =>
      if (t.get? i).any (·.rank == some rank) then none else some (.rankMismatch rank)

def audit (c : Contents) : Audit Unit := do
  let ws ← (List.range liveBuckets).mapM c.auditBucket
  let _ ← c.auditBucket quarantine
  let t := c.table
  if Walked.total (·.segments) ws ≠ t.inUse ∨ t.count quarantine ≠ t.training ∨
      t.segments.size ≠ t.inUse + t.training then
    throw (.segmentCount t.segments.size t.inUse t.training)
  let objects := Walked.total (·.objects) ws
  if objects ≠ c.store.size then throw (.segmentObjects objects c.store.size)
  .reject (rankFlaw t)
  c.account.audit c.store

end Contents

open Regression in
instance {μ : Type} [Regressor μ] : EvictionPolicy (Cache μ) where
  name _ := "GLCache"
  account := Cache.account
  withAccount c account := { c with contents := { c.contents with account } }
  check := Cache.check
  insert := Cache.insert
  victim _ _ := throw (.noSingleVictim "GLCache")
  evict c _ := c.evict
  remove := Cache.remove
  audit c := c.contents.audit
  settle := Cache.settle
  evictable c := c.contents.table.inUse

end CacheReplay.GLCache
