import CacheReplay.GLCache.Choice
import CacheReplay.GLCache.Learner
import CacheReplay.Policy.Contract

set_option autoImplicit false

/-!
# The group-level cache

Objects are written in order of arrival into segments. An eviction merges a run
of segments of one bucket, or evicts one segment whole. Which segments go is
chosen in order of creation, at random or by utility; the utility comes from a
trained model or from future accesses. A cache with a trained signal chooses in
order of creation while it has no model.
-/
namespace CacheReplay.GLCache

open Regression

/-- How intensive the workload was in the last complete window, and the window under way. -/
structure Load where
  rates : Rates
  since : Moment
  requests : Nat
  misses : Nat

namespace Load

def start : Load := ⟨⟨1, 1, 0.5⟩, ⟨0, 0⟩, 0, 0⟩

def leastWindow : Moment := ⟨10, 1000⟩

def measured (l : Load) (seconds : Int) : Rates :=
  let requests := Floating.ofNat l.requests
  let misses := Floating.ofNat l.misses
  let seconds := Floating.ofInt seconds
  ⟨requests / seconds, misses / seconds, misses / requests⟩

def record (l : Load) (hit : Bool) (m : Moment) : Checked Load := do
  let l := { l with
    requests := l.requests + 1
    misses := if hit then l.misses else l.misses + 1 }
  let seconds ← subTime m.time l.since.time
  if seconds < leastWindow.time then pure l
  else
    let served ← subTime m.now l.since.now
    if served < leastWindow.now then pure l
    else pure ⟨l.measured seconds, m, 0, 0⟩

end Load

structure Tally where
  merges : Nat
  singles : Nat
  evictedObjects : Nat
  evictedBytes : Nat
  keptObjects : Nat
  ghosts : Nat
  deriving Repr, DecidableEq

def Tally.zero : Tally := ⟨0, 0, 0, 0, 0, 0⟩

structure Cache (μ : Type) where
  config : Config
  contents : Contents
  turn : Nat
  random : Randomness.Generator
  learner : Learner μ
  load : Load
  tally : Tally
  /-- When an eviction of a single segment was last worth a notice. -/
  lastNotice : Option Int

namespace Cache
variable {μ : Type}

/-- An empty cache; the configuration is expected to be valid. -/
def ofConfig (capacity overhead : Nat) (config : Config) (model : μ) : Cache μ where
  config
  contents := .empty capacity overhead config.segmentSize
  turn := 0
  random := .ofSeed (.ofNat config.seed)
  learner := .start model config.maxRows
  load := .start
  tally := .zero
  lastNotice := none

def ofParams (capacity overhead : Nat) (p : Params) (model : μ) :
    Except ConfigError (Cache μ) := do
  let config ← Config.ofParams p
  pure (ofConfig capacity overhead config model)

def account (c : Cache μ) : Account := c.contents.account

def moment (c : Cache μ) : Moment := ⟨c.account.clock, c.account.now⟩

def record? (c : Cache μ) (id : Nat) : Option (Record ObjectTag) := c.contents.store.findRecord? id

def selection (c : Cache μ) : Selection :=
  match c.config.selection with
  | some s => s
  | none => if c.config.signal.trained && !c.learner.ready then .fifo else .learned

/-- Objects of a segment that its utility takes as kept. -/
def utilityRetained (c : Cache μ) : Nat :=
  if c.config.utilityRetains then c.config.retainPerSegment else 0

def labelling (c : Cache μ) : Labelling where
  source := c.config.labels
  score := c.config.objectScore
  retained := c.utilityRetained
  skip := if c.config.labelSkipsRetained then some c.config.retainPerSegment else none

/-- The bucket for objects of a size: by the power of two below it, or the same for all. -/
def bucketFor (c : Cache μ) (size : Nat) : Nat :=
  match c.config.buckets with
  | .single => 0
  | .bySize => min (max size 1).log2 (liveBuckets - 1)

def creditSegment (c : Cache μ) (segment : Slot) (size : Nat) : Checked (Cache μ) :=
  if (c.contents.table.get? segment).any (·.sampled) then do
    let (learner, table) ←
      c.learner.credit c.contents.table segment size c.account.now c.labelling
    pure { c with learner, contents := { c.contents with table } }
  else pure c

def creditGhost (c : Cache μ) (id : Nat) : Checked (Cache μ) :=
  match c.contents.store.findGhost? id with
  | none => pure c
  | some i => do
    let c ← match c.contents.store.get? i with
      | some r => c.creditSegment r.tag.segment r.size
      | none => pure c
    let (_, store) ← c.contents.store.delete i
    pure { c with contents := { c.contents with store } }

def bumpFreq (freq : Nat) : Nat := min (freq + 1) (countBound - 1)

def countHit (s : Segment) (wasActive : Bool) (time : Int) : Checked Segment := do
  let windows ← s.windows.recordHit time
  let active ← if wasActive then pure s.active else addCount s.active 1
  pure { s with hits := s.hits + 1, windows, active }

def hit (c : Cache μ) (req : Request) (i : Slot) (r : Record ObjectTag) : Checked (Cache μ) := do
  let segment := r.tag.segment
  match c.contents.table.get? segment with
  | none =>
    let store := c.contents.store.modify i fun r =>
      { r.touch req c.account.now with
        tag := { r.tag with active := true, freq := bumpFreq r.tag.freq } }
    pure { c with contents := { c.contents with store } }
  | some s =>
    let store := c.contents.store.modify i fun r =>
      { r.touch req c.account.now with
        tag := { r.tag with
          active := true, freq := bumpFreq r.tag.freq, seen := r.tag.seen || s.sampled } }
    let counted ← countHit s r.tag.active c.account.clock
    let table := c.contents.table.modify segment fun _ => counted
    ({ c with contents := { c.contents with store, table } } : Cache μ).creditSegment segment r.size

/-- Without `update`, only answers whether the object is cached; objects do not expire. -/
def check (c : Cache μ) (req : Request) (update : Bool) : Checked (Outcome × Cache μ) :=
  match c.contents.store.find? req.id with
  | none =>
    if update then do
      let c ← c.creditGhost req.id
      pure (.miss, c)
    else pure (.miss, c)
  | some i =>
    if update then
      match c.contents.store.get? i with
      | none => pure (.miss, c)
      | some r => do
        let c ← c.hit req i r
        let c ← c.creditGhost req.id
        pure (.hit, c)
    else pure (.hit, c)

def writable? (t : Table) (k : Nat) : Option Slot := do
  let i ← (t.bucket k).chain.back
  let s ← t.get? i
  if s.objects.size < t.segmentSize then some i else none

/-- The segment to write to; a full one is stamped with the latest rates and followed by a new one. -/
def openSegment (c : Cache μ) (k : Nat) : Checked (Slot × Table) :=
  let t := c.contents.table
  match writable? t k with
  | some i => pure (i, t)
  | none => do
    let t := match (t.bucket k).chain.back with
      | some i => t.modify i fun s => { s with rates := c.load.rates }
      | none => t
    let (i, t) ← t.allocate k c.account.clock c.account.now
    pure (i, t.append i)

def insert (c : Cache μ) (req : Request) : Checked (Slot × Cache μ) := do
  let (segment, table) ← c.openSegment (c.bucketFor req.size)
  let (i, store) ← c.contents.store.insert req c.account.now (.fresh segment)
  let footprint ← c.account.footprint req.size
  let bytes ← addWord (((table.get? segment).map (·.bytes)).getD 0) footprint
  let table := table.modify segment fun s => { s with objects := s.objects.push i, bytes }
  let account ← c.account.charge req.size
  pure (i, { c with contents := ⟨table, store, account⟩ })

def remove (c : Cache μ) (id : Nat) : Checked (Bool × Cache μ) :=
  match c.contents.store.find? id with
  | none => pure (false, c)
  | some i => do
    match ← c.contents.store.delete i with
    | (none, _) => pure (false, c)
    | (some r, store) =>
      let footprint ← c.account.footprint r.size
      let table ← match c.contents.table.get? r.tag.segment with
        | none => pure c.contents.table
        | some s => do
          let bytes ← subWord s.bytes footprint
          let active ← if r.tag.active then subWord s.active 1 else pure s.active
          pure (c.contents.table.modify r.tag.segment fun s =>
            { s with objects := s.objects.filter (· != i), bytes, active })
      let account ← c.account.release r.size
      pure (true, { c with contents := ⟨table, store, account⟩ })

/-- The utility of a segment from future accesses; an unmergeable one is penalised. -/
def foreseen (c : Cache μ) (i : Slot) (s : Segment) : Checked Float := do
  let t := c.contents.table
  let loss ← lossOf c.contents.store s.objects.toList c.config.objectScore c.moment
    (c.config.signal = .twoOracle) c.utilityRetained
  let penalised := !t.mergeable true 1 (some i) || t.count s.bucket < c.config.mergeCount + 1
  pure (if penalised then loss + unmergeablePenalty else loss)

def utilityOf [Regressor μ] (c : Cache μ) (i : Slot) (s : Segment) : Checked Float :=
  if c.config.signal.trained then
    c.learner.predicted c.contents.table s c.account.clock c.config.mergeCount
  else c.foreseen i s

def appraise [Regressor μ] (c : Cache μ) : Checked Table := do
  let t := c.contents.table
  let utilities ← t.live.mapM fun i => do
    match t.get? i with
    | none => pure (i, unrankedUtility)
    | some s => pure (i, ← c.utilityOf i s)
  pure (utilities.foldl (fun t (i, utility) => t.modify i fun s => { s with utility }) t)

def rankedTable [Regressor μ] (c : Cache μ) : Checked Table := do
  let (grown, table) := c.contents.table.growRanking
  if grown || table.rankingDue c.config.rankInterval then
    let table ← ({ c with contents := { c.contents with table } } : Cache μ).appraise
    pure table.rerank
  else pure table

def chooser (c : Cache μ) (table : Table) : Chooser := ⟨table, c.turn, c.random⟩

def withChooser (c : Cache μ) (h : Chooser) : Cache μ :=
  { c with contents := { c.contents with table := h.table }, turn := h.turn, random := h.random }

def choose [Regressor μ] (c : Cache μ) : Checked (Option Choice × Cache μ) := do
  let n := c.config.mergeCount
  let t := c.contents.table
  let p ← match c.selection with
    | .fifo => pure ((c.chooser t).fifoRun n (liveBuckets + 2))
    | .weightedFifo => pure ((c.chooser t).weightedRun n)
    | .random => pure ((c.chooser t).randomRun n (liveBuckets + 1))
    | .learned => do
      let t ← c.rankedTable
      pure ((c.chooser t).rankedRun ⟨n, c.config.consecutive, c.config.fallbackFraction⟩)
  let (choice, h) := Chooser.orOldest p
  pure (choice, c.withChooser h)

def noticeInterval : Int := 6 * 3600

def noticed (c : Cache μ) (time : Int) : Checked (Option Int) :=
  match c.lastNotice with
  | none => pure (some time)
  | some last => do
    let elapsed ← subTime time last
    pure (some (if noticeInterval ≤ elapsed then time else last))

def countEvicted (t : Tally) (before after : Account) (objects : Nat) : Checked Tally := do
  let freed ← subWord before.occupied after.occupied
  let evictedBytes ← addWord t.evictedBytes freed
  pure { t with evictedObjects := t.evictedObjects + objects, evictedBytes }

def evictSingle (c : Cache μ) (i : Slot) : Checked (Cache μ) := do
  let lastNotice ← c.noticed c.account.clock
  let (n, contents) ← c.contents.evictSegment i c.moment
  let tally ← countEvicted c.tally c.account contents.account n
  pure { c with contents, tally := { tally with singles := tally.singles + 1 }, lastNotice }

def evictRun (c : Cache μ) (run : List Slot) : Checked (Cache μ) := do
  let exact ← scoresOf c.contents.table c.contents.store c.config.objectScore c.moment run
  let (scores, random) := if c.config.jitter then disturb exact c.random else (exact, c.random)
  let bar ← cutoff scores c.config.retain
  let (did, contents) ← c.contents.merge run scores bar c.moment
  let tally ← countEvicted c.tally c.account contents.account did.dropped
  let tally := { tally with
    merges := tally.merges + 1
    keptObjects := tally.keptObjects + did.kept
    ghosts := tally.ghosts + did.ghosted }
  pure { c with contents, random, tally }

def evict [Regressor μ] (c : Cache μ) : Checked (Bool × Cache μ) := do
  let (choice, c) ← c.choose
  match choice with
  | none => pure (false, c)
  | some (.merge run) => do
    let c ← c.evictRun run
    pure (true, c)
  | some (.single i) => do
    let c ← c.evictSingle i
    pure (true, c)

def snapshot (c : Cache μ) : Checked (Cache μ) := do
  let (learner, contents) ← c.learner.snapshot c.contents c.moment c.labelling
  pure { c with learner, contents }

def learn [Regressor μ] (c : Cache μ) : Checked (Cache μ) := do
  let time := c.account.clock
  match ← c.learner.nextStep time c.config.warmup c.config.retrainInterval with
  | .wait => pure c
  | .firstSnapshot =>
    ({ c with learner := { c.learner with started := true, lastTraining := time } } : Cache μ).snapshot
  | .retrain => do
    let (learner, contents) ← c.learner.train c.contents time
    ({ c with learner, contents } : Cache μ).snapshot

/-- After each request: training if the signal is trained, then the rates. -/
def settle [Regressor μ] (c : Cache μ) (hit : Bool) : Checked (Cache μ) := do
  let c ← if c.config.signal.trained then c.learn else pure c
  let load ← c.load.record hit c.moment
  pure { c with load }

end Cache
end CacheReplay.GLCache
