import CacheReplay.GLCache.Ranking
import CacheReplay.Randomness.Generator

set_option autoImplicit false

namespace CacheReplay.GLCache

inductive Choice where
  | merge (run : List Slot)
  | single (i : Slot)
  deriving Repr, DecidableEq

structure Chooser where
  table : Table
  turn : Nat
  random : Randomness.Generator

namespace Chooser

def start (c : Chooser) (k : Nat) : Option Slot := (c.table.bucket k).cursor.or (c.table.bucket k).chain.front

def setCursor (c : Chooser) (k : Nat) (i : Option Slot) : Chooser :=
  { c with table := c.table.modifyBucket k fun b => { b with cursor := i } }

def nextTurn (k : Nat) : Nat := (k + 1) % liveBuckets

def draw (c : Chooser) (range : Nat) : Nat × Chooser :=
  let (r, random) := c.random.below32 range
  (r, { c with random })

def bucketOf (t : Table) : List Nat → Nat → Option Nat
  | [], _ => none
  | k :: ks, r => if r < t.count k then some k else bucketOf t ks (r - t.count k)

def oldest (c : Chooser) : Option Choice × Chooser :=
  if c.table.inUse = 0 then (none, c)
  else
    let (r, c) := c.draw c.table.inUse
    match bucketOf c.table (List.range liveBuckets) r with
    | none => (none, c)
    | some k => ((c.table.bucket k).chain.front.map .single, c.setCursor k none)

def orOldest (p : Option Choice × Chooser) : Option Choice × Chooser :=
  if p.1.isSome then p else p.2.oldest

/--
Takes the oldest run of the first bucket from the current one on that has one.
The cursor of a bucket moves behind its run while another run may follow.
-/
def fifoRun (n : Nat) : Nat → Chooser → Option Choice × Chooser
  | 0, c => c.oldest
  | tries + 1, c =>
    let k := c.turn
    let start := c.start k
    if c.table.mergeable true n start then
      let (run, after) := c.table.run true n start
      if n + 1 < c.table.count k then (some (.merge run), c.setCursor k after)
      else (some (.merge run), { c.setCursor k none with turn := nextTurn k })
    else fifoRun n tries { c.setCursor k none with turn := nextTurn k }

/--
Walks some buckets, `r` segments far; a bucket without a run has its cursor
reset and is left out, one that is too small is left out altogether.
-/
def weightedBucket (n : Nat) : List Nat → Nat → Chooser → Option (Nat × Slot) × Chooser
  | [], _, c => (none, c)
  | k :: ks, r, c =>
    let size := c.table.count k
    if size < n + 1 then weightedBucket n ks r c
    else if size < r then weightedBucket n ks (r - size) c
    else
      let start := c.start k
      if c.table.mergeable true n start then (start.map fun i => (k, i), c)
      else weightedBucket n ks r (c.setCursor k none)

/-- Like `fifoRun`, in a bucket drawn in proportion to its size; the walk goes over all buckets twice. -/
def weightedRun (n : Nat) (c : Chooser) : Option Choice × Chooser :=
  if c.table.inUse = 0 then (none, c)
  else
    let (r, c) := c.draw c.table.inUse
    let ks := List.range liveBuckets
    match weightedBucket n (ks ++ ks) r c with
    | (none, c) => c.oldest
    | (some (k, i), c) =>
      let (run, after) := c.table.run true n (some i)
      (some (.merge run), c.setCursor k (if 2 * n + 1 < c.table.count k then after else none))

def randomRun (n : Nat) : Nat → Chooser → Option Choice × Chooser
  | 0, c => c.oldest
  | tries + 1, c =>
    let k := c.turn
    let c := { c with turn := nextTurn k }
    let size := c.table.count k
    if size ≤ n then randomRun n tries c
    else
      let (offset, c) := c.draw (size - n)
      let start := (c.table.chainOf k)[offset]?
      if c.table.mergeable true n start then (some (.merge (c.table.run true n start).1), c)
      else randomRun n tries c

structure RankedRule where
  length : Nat
  consecutive : Bool
  /-- The fraction of the ranking after which an unmergeable candidate ends the search. -/
  fallback : Float

def setPosition (c : Chooser) (p : Option Nat) : Chooser :=
  { c with table := { c.table with ranking := { c.table.ranking with position := p } } }

def giveUp (c : Chooser) (first : Slot) : Option Choice × Chooser :=
  match c.table.get? first with
  | none => (none, c)
  | some s =>
    let table := (c.table.modifyBucket s.bucket fun b =>
      { b with rankedHead := none, rankedTail := none }).clearRank first
    (some (.single first), ({ c with table } : Chooser).setPosition none)

def takeRanked (rule : RankedRule) (c : Chooser) (start : Slot) : Option Choice × Chooser :=
  match c.table.get? start with
  | none => (none, c)
  | some s =>
    let run := (c.table.run rule.consecutive rule.length (some start)).1
    let head := (run.getLast?.bind c.table.get?).bind (·.nextRanked)
    let table := (run.foldl Table.clearRank c.table).modifyBucket s.bucket fun b =>
      { b with rankedHead := head, rankedTail := if head.isSome then b.rankedTail else none }
    (some (.merge run), { c with table })

/--
Searches the ranking from `position` on for the start of a run. Candidates that
cannot start one leave the ranking; `first` is the first of them, and `left`
bounds the slots to be looked at.
-/
def search (rule : RankedRule) :
    Nat → Nat → Option Slot → Chooser → Option Choice × Chooser
  | 0, _, _, c => (c.setPosition none).oldest
  | left + 1, position, first, c =>
    match c.table.ranking.slots[position]? with
    | none => (c.setPosition none).oldest
    | some none => search rule left (position + 1) first c
    | some (some i) =>
      let first := first.getD i
      if c.table.mergeable rule.consecutive rule.length (some i) then
        takeRanked rule (c.setPosition (some (position + 1))) i
      else if Floating.ofNat c.table.ranking.count * rule.fallback < Floating.ofNat position then
        giveUp c first
      else search rule left (position + 1) (some first) { c with table := c.table.clearRank i }

def rankedRun (rule : RankedRule) (c : Chooser) : Option Choice × Chooser :=
  match c.table.ranking.position with
  | none => c.oldest
  | some p => search rule (c.table.ranking.slots.size - p) p none c

end Chooser
end CacheReplay.GLCache
