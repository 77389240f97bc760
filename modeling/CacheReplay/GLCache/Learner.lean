import CacheReplay.GLCache.Features
import CacheReplay.GLCache.Merge
import CacheReplay.Regression.Model

set_option autoImplicit false

/-!
# Learning utilities

A snapshot samples live segments: it copies their features and opens a label
for each. Until the next training run every hit on an object of a sampled
segment adds to the label of that segment. A training run fits the model to the
rows, empties the quarantine and is followed by a new snapshot.
-/
namespace CacheReplay.GLCache

open Regression

structure Sample where
  features : Row
  label : Float32

structure Learner (μ : Type) where
  model : μ
  /-- The rows under way: all features in one array and all labels in another. -/
  samples : Samples
  maxRows : Nat
  started : Bool
  ready : Bool
  trainings : Nat
  failures : Nat
  lastTraining : Int

inductive TrainingStep where
  | wait
  | firstSnapshot
  | retrain
  deriving Repr, DecidableEq

structure Labelling where
  source : LabelSource
  score : Score
  retained : Nat
  /-- Hits on a segment that do not count. -/
  skip : Option Nat

def validationStride : Nat := 10

def unmergeablePenalty : Float := 1073741823

namespace Learner
variable {μ : Type}

def start (model : μ) (maxRows : Nat) : Learner μ := ⟨model, .empty, maxRows, false, false, 0, 0, 0⟩

/-- The schedule: nothing during the warmup, a first snapshot, then a run per interval. -/
def nextStep (l : Learner μ) (time warmup interval : Int) : Checked TrainingStep :=
  if time ≤ warmup then pure .wait
  else if !l.started then pure .firstSnapshot
  else do
    let elapsed ← subTime time l.lastTraining
    let bound ← addTime interval 1
    pure (if bound ≤ elapsed then .retrain else .wait)

def firstLabel (c : Contents) (s : Segment) (m : Moment) (how : Labelling) : Checked Float32 :=
  match how.source with
  | .online => pure 0
  | .oracle => do
    let loss ← lossOf c.store s.objects.toList how.score m true how.retained
    pure loss.toFloat32

/-- Segments that a snapshot may sample: all but the one at the back of each bucket. -/
def candidates (t : Table) : List Slot :=
  (List.range liveBuckets).flatMap fun k => (t.chainOf k).take (t.count k - 1)

/--
Picks one candidate out of every `ratio`, on average, as long as there is `room`
for rows. `credit` is the fraction of a sample that earlier candidates left.
-/
def pick (c : Contents) (m : Moment) (how : Labelling) (ratio : Float) :
    Float → Nat → List Slot → Checked (List (Slot × Sample))
  | _, _, [] => pure []
  | credit, room, i :: rest => do
    let credit := credit + 1
    match c.table.get? i with
    | none => pick c m how ratio credit room rest
    | some s =>
      if ratio ≤ credit && s.links.next.isSome && 0 < room then do
        let label ← firstLabel c s m how
        let features ← s.features m.time
        let more ← pick c m how ratio (credit - ratio) (room - 1) rest
        pure ((i, ⟨features, label⟩) :: more)
      else pick c m how ratio credit room rest

def unsample (s : Segment) : Segment := { s with sampled := false, row := none, label := 0 }

def mark (t : Table) (i : Slot) (row : Nat) (now : Int) : Table :=
  t.modify i fun s =>
    { s with sampled := true, row := some row, labelledFrom := now, label := 0, skipped := 0 }

def enroll (now : Int) : List (Slot × Sample) → Samples → Table → Samples × Table
  | [], s, t => (s, t)
  | (i, x) :: rest, s, t => enroll now rest (s.push x.features x.label) (mark t i s.size now)

def snapshot (l : Learner μ) (c : Contents) (m : Moment) (how : Labelling) :
    Checked (Learner μ × Contents) := do
  let t := c.table
  let ratio := Floating.max (Floating.ofNat t.inUse / Floating.ofNat l.maxRows) 1
  let picked ← pick c m how ratio 0 (l.maxRows - l.samples.size) (candidates t)
  let t := t.live.foldl (fun t i => t.modify i unsample) t
  let (samples, t) := enroll m.now picked l.samples t
  pure ({ l with samples }, { c with table := t })

/-- What a hit adds to a label: soon after the snapshot and for a small object, more. -/
def hitValue (s : Segment) (size : Nat) (now : Int) : Checked Float := do
  let elapsed ← subTime now s.labelledFrom
  let elapsed ← addTime elapsed 1
  pure (1e6 / Floating.ofInt (max elapsed 1) / Floating.ofNat (max size 1))

def credit (l : Learner μ) (t : Table) (i : Slot) (size : Nat) (now : Int) (how : Labelling) :
    Checked (Learner μ × Table) :=
  match how.source, t.get? i with
  | .oracle, _ => pure (l, t)
  | .online, none => pure (l, t)
  | .online, some s => do
    let skipped := s.skipped
    let t := if how.skip.isSome then t.modify i fun s => { s with skipped := skipped + 1 } else t
    if how.skip.any fun n => skipped < n then pure (l, t)
    else do
      let label := s.label + (← hitValue s size now)
      let t := t.modify i fun s => { s with label }
      match s.row with
      | none => pure (l, t)
      | some row =>
        let labels := l.samples.labels.modify row fun _ => label.toFloat32
        pure ({ l with samples := { l.samples with labels } }, t)

def labelRange (labels : List Float32) : Float32 × Float32 :=
  labels.foldl (fun (low, high) y => (Floating.min32 low y, Floating.max32 high y))
    (1.0 / 0.0, -1.0 / 0.0)

def normalize (low high y : Float32) : Float32 := if low < high then (y - low) / (high - low) else y

/--
Cuts the row of each label out of the features and divides the rows between
training and validation; a row of zeros is left out.
-/
def divide (s : Samples) (low high : Float32) (maxValid : Nat) :
    Nat → List Float32 → TrainingData → Checked TrainingData
  | _, [], d => pure d
  | k, y :: rest, d => do
    let x ← s.row featureCount k
    let label := normalize low high y
    let d :=
      if x.all (· == 0) then d
      else if k % validationStride = 0 && d.valid.size < maxValid then d.pushValid x label
      else d.pushTrain x label
    divide s low high maxValid (k + 1) rest d

def prepare (l : Learner μ) : Checked TrainingData :=
  let labels := l.samples.labels.toList
  let (low, high) := labelRange labels
  divide l.samples low high (l.maxRows / validationStride) 0 labels (.empty featureCount)

/-- Fits the model to the samples and empties the quarantine, also when the fit fails. -/
def train [Regressor μ] (l : Learner μ) (c : Contents) (time : Int) :
    Checked (Learner μ × Contents) := do
  let data ← l.prepare
  let c ← c.clearQuarantine
  let (result, model) ← Regressor.fit l.model data
  let l := { l with model, samples := .empty, lastTraining := time }
  match result with
  | .ok () => pure ({ l with trainings := l.trainings + 1, ready := true }, c)
  | .error _ => pure ({ l with failures := l.failures + 1, ready := false }, c)

def utility (prediction : Float) (bytes : Nat) : Float :=
  let size := Floating.ofNat (max bytes 1)
  if 0 < prediction then prediction * 1e6 / size
  else if prediction < 0 then prediction * size
  else 0

def predicted [Regressor μ] (l : Learner μ) (t : Table) (s : Segment) (time : Int) (mergeCount : Nat) :
    Checked Float := do
  let features ← s.features time
  let u := utility (Regressor.predict l.model features).toFloat s.bytes
  pure (if t.count s.bucket < mergeCount + 1 then u + unmergeablePenalty else u)

end Learner
end CacheReplay.GLCache
