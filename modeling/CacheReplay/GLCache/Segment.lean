import CacheReplay.Account
import CacheReplay.GLCache.Window

set_option autoImplicit false

/-!
# Segments

A segment is a group of objects that were written together. The live segments
of a bucket form a chain in order of creation, whose last segment is being
written. Sampled segments that were emptied wait in the quarantine, the bucket
behind the live ones, and list the ghosts that still collect their label.
-/
namespace CacheReplay.GLCache

/-- Live buckets are numbered from zero; the quarantine comes after them. -/
def liveBuckets : Nat := 64

def quarantine : Nat := liveBuckets

structure ObjectTag where
  segment : Slot
  /-- Saturating number of hits, halved by each merge. -/
  freq : Nat
  active : Bool
  /-- Hit since its segment was sampled. -/
  seen : Bool
  deriving Repr, DecidableEq, Inhabited

def ObjectTag.fresh (segment : Slot) : ObjectTag := ⟨segment, 0, false, false⟩

structure Rates where
  requests : Float
  writes : Float
  misses : Float

structure Segment where
  id : Nat
  objects : Array Slot
  bytes : Nat
  hits : Nat
  active : Nat
  merges : Nat
  createTime : Int
  createNow : Int
  rates : Rates
  utility : Float
  /-- The label that hits have added up to since sampling. -/
  label : Float
  skipped : Nat
  rank : Option Nat
  sampled : Bool
  row : Option Nat
  labelledFrom : Int
  windows : HitWindows
  bucket : Nat
  links : Links
  nextRanked : Option Slot

instance : Linked Segment where
  links := Segment.links
  withLinks s l := { s with links := l }

def unrankedUtility : Float := 2147483647

def Segment.fresh (id bucket : Nat) (time now : Int) : Segment where
  id
  objects := #[]
  bytes := 0
  hits := 0
  active := 0
  merges := 0
  createTime := time
  createNow := now
  rates := ⟨0, 0, 0⟩
  utility := unrankedUtility
  label := 0
  skipped := 0
  rank := none
  sampled := false
  row := none
  labelledFrom := 0
  windows := .start time
  bucket
  links := .detached
  nextRanked := none

structure Bucket where
  chain : Chain
  /-- Where the next merge in order of creation starts, if not at the front. -/
  cursor : Option Slot
  rankedHead : Option Slot
  rankedTail : Option Slot
  deriving Repr, DecidableEq, Inhabited

def Bucket.empty : Bucket := ⟨.empty, none, none, none⟩

/-- Live segments in order of utility, used up from a position on. -/
structure Ranking where
  slots : Array (Option Slot)
  /-- The next candidate; none when the ranking is stale. -/
  position : Option Nat
  count : Nat

def Ranking.empty : Ranking := ⟨#[], some 0, 0⟩

structure Table where
  segments : Arena Segment
  /-- The live buckets and, behind them, the quarantine. -/
  buckets : Array Bucket
  inUse : Nat
  training : Nat
  nextId : Nat
  segmentSize : Nat
  ranking : Ranking

namespace Table

def empty (segmentSize : Nat) : Table :=
  ⟨.empty, .replicate (liveBuckets + 1) .empty, 0, 0, 0, segmentSize, .empty⟩

def get? (t : Table) (i : Slot) : Option Segment := t.segments.get? i

def modify (t : Table) (i : Slot) (f : Segment → Segment) : Table :=
  { t with segments := t.segments.modify i f }

def bucket (t : Table) (k : Nat) : Bucket := t.buckets[k]?.getD .empty

def bucketAt (t : Table) (k : Nat) : Checked Bucket :=
  match t.buckets[k]? with
  | some b => pure b
  | none => throw .outOfBounds

def modifyBucket (t : Table) (k : Nat) (f : Bucket → Bucket) : Table :=
  { t with buckets := t.buckets.modify k f }

def count (t : Table) (k : Nat) : Nat := (t.bucket k).chain.length

def chainOf (t : Table) (k : Nat) : List Slot := (t.bucket k).chain.toList t.segments

def live (t : Table) : List Slot := (List.range liveBuckets).flatMap t.chainOf

def allocate (t : Table) (bucket : Nat) (time now : Int) : Checked (Slot × Table) := do
  let nextId ← addWord t.nextId 1
  let (i, segments) := t.segments.insert (.fresh t.nextId bucket time now)
  pure (i, { t with segments, nextId })

def countIn (t : Table) (k : Nat) : Table :=
  if k = quarantine then { t with training := t.training + 1 } else { t with inUse := t.inUse + 1 }

def countOut (t : Table) (k : Nat) : Checked Table :=
  if k = quarantine then do
    let training ← subWord t.training 1
    pure { t with training }
  else do
    let inUse ← subWord t.inUse 1
    pure { t with inUse }

def append (t : Table) (i : Slot) : Table :=
  match t.get? i with
  | none => t
  | some s =>
    let (chain, segments) := (t.bucket s.bucket).chain.pushBack t.segments i
    ({ t with segments }.modifyBucket s.bucket fun b => { b with chain }).countIn s.bucket

def insertBefore (t : Table) (bucket : Nat) (anchor i : Slot) : Table :=
  match t.get? anchor with
  | none => t
  | some _ =>
    let (chain, segments) := (t.bucket bucket).chain.insertBefore t.segments anchor i
    ({ t with segments }.modifyBucket bucket fun b => { b with chain }).countIn bucket

def forget (i : Slot) (h : Option Slot) : Option Slot := if h = some i then none else h

def unlink (t : Table) (i : Slot) : Checked Table := do
  match t.get? i with
  | none => pure t
  | some s =>
    let (chain, segments) ← (t.bucket s.bucket).chain.unlink t.segments i
    let t := { t with segments }.modifyBucket s.bucket fun b => {
      chain
      cursor := if b.cursor = some i then s.links.next else b.cursor
      rankedHead := forget i b.rankedHead
      rankedTail := forget i b.rankedTail }
    t.countOut s.bucket

def clearRank (t : Table) (i : Slot) : Table :=
  match (t.get? i).bind (·.rank) with
  | none => t
  | some r =>
    let t := t.modify i fun s => { s with rank := none }
    { t with ranking := { t.ranking with
      slots := t.ranking.slots.modify r (forget i) } }

def free (t : Table) (i : Slot) : Checked Table := do
  let t ← (t.clearRank i).unlink i
  pure { t with segments := (t.segments.remove i).2 }

/-- Moves a sampled segment to the quarantine, where its label starts anew. -/
def retire (t : Table) (i : Slot) (now : Int) : Checked Table := do
  let t ← (t.clearRank i).unlink i
  let t := t.modify i fun s =>
    { s with bucket := quarantine, labelledFrom := now, label := 0 }
  pure (t.append i)

def rankedNext (t : Table) (i : Slot) : Option Slot := do
  let s ← t.get? i
  let j ← s.nextRanked
  let n ← t.get? j
  if n.bucket = s.bucket ∧ n.rank.isSome then some j else none

def neighbour (t : Table) (consecutive : Bool) (i : Slot) : Option Slot :=
  if consecutive then t.segments.nextOf i else t.rankedNext i

/--
Whether `n` segments can be merged from `start` on: each of them has a
successor in order of creation, so none is the one being written.
-/
def mergeable (t : Table) (consecutive : Bool) : Nat → Option Slot → Bool
  | 0, _ => true
  | _ + 1, none => false
  | n + 1, some i => (t.segments.nextOf i).isSome && t.mergeable consecutive n (t.neighbour consecutive i)

def run (t : Table) (consecutive : Bool) : Nat → Option Slot → List Slot × Option Slot
  | 0, next => ([], next)
  | _ + 1, none => ([], none)
  | n + 1, some i =>
    let (rest, next) := t.run consecutive n (t.neighbour consecutive i)
    (i :: rest, next)

theorem get?_modify (t : Table) (i j : Slot) (f : Segment → Segment) :
    (t.modify i f).get? j = if i = j then (t.get? j).map f else t.get? j :=
  t.segments.get?_modify i j f

theorem get?_modifyBucket (t : Table) (k : Nat) (f : Bucket → Bucket) (i : Slot) :
    (t.modifyBucket k f).get? i = t.get? i := rfl

theorem mergeable_none (t : Table) (consecutive : Bool) (n : Nat) :
    t.mergeable consecutive n none = decide (n = 0) := by
  cases n <;> simp [mergeable]

theorem length_run_of_mergeable (t : Table) (consecutive : Bool) (n : Nat) (start : Option Slot)
    (h : t.mergeable consecutive n start = true) : (t.run consecutive n start).1.length = n := by
  induction n generalizing start with
  | zero => simp [run]
  | succ n ih =>
    cases start with
    | none => simp [mergeable] at h
    | some i =>
      simp only [mergeable, Bool.and_eq_true] at h
      simp only [run, List.length_cons, ih _ h.2]

end Table
end CacheReplay.GLCache
