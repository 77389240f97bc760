import CacheReplay.GLCache.Score

set_option autoImplicit false

/-!
# Merging and evicting segments

A merge moves the objects that score well into one new segment and drops the
others; a whole segment can also be evicted at once. The objects of a sampled
segment that were not hit since it was sampled leave a ghost behind, and the
segment goes to the quarantine with these ghosts; any other segment is freed.
-/
namespace CacheReplay.GLCache

/-- The segments, the records and the account of a cache, which change together. -/
structure Contents where
  table : Table
  store : Store ObjectTag
  account : Account

namespace Contents

def empty (capacity overhead segmentSize : Nat) : Contents :=
  ⟨.empty segmentSize, .empty, .empty capacity overhead⟩

def meanRates (ss : List Segment) (n : Nat) : Rates :=
  let mean (f : Rates → Float) : Float :=
    (ss.map (f ·.rates)).foldl (· + ·) 0 / Floating.ofNat n
  ⟨mean (·.requests), mean (·.writes), mean (·.misses)⟩

def takeObjects (c : Contents) (i : Slot) : List Slot × Contents :=
  (c.table.objectsOf i, { c with table := c.table.modify i fun s => { s with objects := #[] } })

def dropObject (c : Contents) (i : Slot) (r : Record ObjectTag) (ghost : Bool) :
    Checked Contents := do
  let account ← c.account.release r.size
  let (_, store) ← (if ghost then c.store.demote else c.store.delete) i
  pure { c with account, store }

/-- A segment that was emptied goes to the quarantine if it was sampled and is freed otherwise. -/
def retireOrFree (c : Contents) (i : Slot) (ghosts : List Slot) (m : Moment) :
    Checked Contents := do
  let table ←
    if (c.table.get? i).any (·.sampled) then
      (c.table.modify i fun s => { s with objects := ghosts.toArray, bytes := 0 }).retire i m.now
    else c.table.free i
  pure { c with table }

end Contents

structure Merging where
  contents : Contents
  target : Slot
  /-- The score that an object must reach to be kept. -/
  cutoff : Float
  scores : List Float
  kept : Array Slot
  keptBytes : Nat
  dropped : Nat
  ghosted : Nat

namespace Merging

def move (g : Merging) (i : Slot) (r : Record ObjectTag) : Checked Merging := do
  let doubled ← addCount r.tag.freq 1
  let tag : ObjectTag := ⟨g.target, doubled / 2, false, false⟩
  let bytes ← g.contents.account.footprint r.size
  let keptBytes ← addWord g.keptBytes bytes
  pure { g with
    contents := { g.contents with store := g.contents.store.modify i fun r => { r with tag } }
    kept := g.kept.push i
    keptBytes }

/-- Keeps or drops one object of a parent; answers the ghost that it leaves, if any. -/
def sift (g : Merging) (sampled : Bool) (i : Slot) : Checked (Option Slot × Merging) := do
  let score := g.scores.head?.getD lowest
  let g := { g with scores := g.scores.tail }
  match g.contents.store.get? i with
  | none => pure (none, g)
  | some r =>
    let leavesGhost := sampled && !r.tag.seen
    if g.kept.size < g.contents.table.segmentSize && g.cutoff ≤ score then
      let (ghost, store) := if leavesGhost then g.contents.store.forkGhost i else (none, g.contents.store)
      let g ← ({ g with contents := { g.contents with store } } : Merging).move i r
      pure (ghost, g)
    else do
      let contents ← g.contents.dropObject i r leavesGhost
      pure (if leavesGhost then some i else none, { g with contents, dropped := g.dropped + 1 })

def siftAll (sampled : Bool) : List Slot → Merging → Checked (List Slot × Merging)
  | [], g => pure ([], g)
  | i :: rest, g => do
    let (ghost, g) ← g.sift sampled i
    let (ghosts, g) ← siftAll sampled rest g
    pure (ghost.toList ++ ghosts, g)

def absorb (g : Merging) (parent : Slot) (m : Moment) : Checked Merging :=
  match g.contents.table.get? parent with
  | none => pure g
  | some s => do
    let (objects, contents) := g.contents.takeObjects parent
    let (ghosts, g) ← siftAll s.sampled objects { g with contents }
    let contents ← g.contents.retireOrFree parent ghosts m
    pure { g with contents, ghosted := if s.sampled then g.ghosted + ghosts.length else g.ghosted }

end Merging

structure Yield where
  kept : Nat
  dropped : Nat
  ghosted : Nat
  deriving Repr, DecidableEq

namespace Contents

def commonBucket (t : Table) (run : List Slot) : Checked Nat :=
  match (run.head?.bind t.get?).map (·.bucket) with
  | none => throw .mergedAcrossBuckets
  | some k =>
    if k ≠ quarantine ∧ run.all fun i => (t.get? i).any (·.bucket == k) then pure k
    else throw .mergedAcrossBuckets

def openTarget (c : Contents) (parents : List Slot) (m : Moment) : Checked (Slot × Contents) := do
  let bucket ← commonBucket c.table parents
  let ss := parents.filterMap c.table.get?
  let (target, table) ← c.table.allocate bucket m.time m.now
  let merges ← addCount ((ss.map (·.merges)).foldl max 0) 1
  let table := table.modify target fun s =>
    { s with rates := meanRates ss parents.length, merges }
  let table := match parents.head? with
    | some anchor => table.insertBefore bucket anchor target
    | none => table
  pure (target, { c with table })

/--
Merges segments of one bucket. `scores` lists one score per object in the order
of the parents; objects from `cutoff` on are kept as long as one segment holds them.
-/
def merge (c : Contents) (parents : List Slot) (scores : List Float) (cutoff : Float)
    (m : Moment) : Checked (Yield × Contents) := do
  let (target, contents) ← c.openTarget parents m
  let start : Merging := {
    contents, target, cutoff, scores, kept := #[], keptBytes := 0, dropped := 0, ghosted := 0 }
  let g ← parents.foldlM (fun g parent => g.absorb parent m) start
  let table := g.contents.table.modify target fun s =>
    { s with objects := g.kept, bytes := g.keptBytes }
  pure (⟨g.kept.size, g.dropped, g.ghosted⟩, { g.contents with table })

def dropAll (sampled : Bool) : List Slot → Contents → Checked (Nat × List Slot × Contents)
  | [], c => pure (0, [], c)
  | i :: rest, c =>
    match c.store.get? i with
    | none => dropAll sampled rest c
    | some r => do
      let leavesGhost := sampled && !r.tag.seen
      let c ← c.dropObject i r leavesGhost
      let (n, ghosts, c) ← dropAll sampled rest c
      pure (n + 1, if leavesGhost then i :: ghosts else ghosts, c)

def evictSegment (c : Contents) (i : Slot) (m : Moment) : Checked (Nat × Contents) :=
  match c.table.get? i with
  | none => pure (0, c)
  | some s => do
    let (objects, c) := c.takeObjects i
    let c := { c with table := c.table.modify i fun s => { s with active := 0 } }
    let (n, ghosts, c) ← dropAll s.sampled objects c
    let c ← c.retireOrFree i ghosts m
    pure (n, c)

/-- Frees a quarantined segment and the ghosts it still owns; other records in its list stay. -/
def freeQuarantined (c : Contents) (i : Slot) : Checked Contents := do
  let store ← (c.table.objectsOf i).foldlM (fun (store : Store ObjectTag) j =>
    if (store.get? j).any fun r => r.ghost && r.tag.segment == i then Prod.snd <$> store.delete j
    else pure store) c.store
  pure { c with store, table := { c.table with segments := (c.table.segments.remove i).2 } }

def clearQuarantine (c : Contents) : Checked Contents := do
  let c ← (c.table.chainOf quarantine).foldlM freeQuarantined c
  pure { c with table := { c.table.modifyBucket quarantine fun _ => .empty with training := 0 } }

end Contents
end CacheReplay.GLCache
