import CacheReplay.Word

set_option autoImplicit false

namespace CacheReplay.Regression

abbrev Row := Array Float32

structure Samples where
  /-- The features of all rows, row after row. -/
  features : Array Float32
  labels : Array Float32

namespace Samples

def empty : Samples := ⟨#[], #[]⟩

def size (s : Samples) : Nat := s.labels.size

def push (s : Samples) (row : Row) (label : Float32) : Samples :=
  ⟨s.features ++ row, s.labels.push label⟩

def row (s : Samples) (width i : Nat) : Checked Row := do
  let start ← mulWord i width
  let stop ← mulWord (← addWord i 1) width
  if stop ≤ s.features.size then pure (s.features.extract start stop) else throw .outOfBounds

def rows (s : Samples) (width : Nat) : Checked (Array Row) :=
  (Array.range s.size).mapM (s.row width)

/-- Whether there are as many features as the labels ask for. -/
def fits (s : Samples) (width : Nat) : Checked Bool := do
  let wanted ← mulWord s.size width
  pure (s.features.size == wanted)

end Samples

inductive FitError where
  | noFeatures
  | noRows
  | ragged (width : Nat)
  | labelNotFinite
  | featureNotFinite
  | predictionNotFinite
  | refused (reason : String)
  deriving Repr, DecidableEq

def FitError.message : FitError → String
  | .noFeatures => "training data has no features"
  | .noRows => "no training rows"
  | .ragged width => s!"feature matrix does not match {width} features per row"
  | .labelNotFinite => "labels must be finite"
  | .featureNotFinite => "features must be finite"
  | .predictionNotFinite => "model produced non-finite predictions"
  | .refused reason => reason

structure TrainingData where
  width : Nat
  train : Samples
  valid : Samples

namespace TrainingData

def empty (width : Nat) : TrainingData := ⟨width, .empty, .empty⟩

def pushTrain (d : TrainingData) (row : Row) (label : Float32) : TrainingData :=
  { d with train := d.train.push row label }

def pushValid (d : TrainingData) (row : Row) (label : Float32) : TrainingData :=
  { d with valid := d.valid.push row label }

def flaw (d : TrainingData) : Checked (Option FitError) := do
  if d.width = 0 then return some .noFeatures
  if d.train.size = 0 then return some .noRows
  if !(← d.train.fits d.width) then return some (.ragged d.width)
  if !(← d.valid.fits d.width) then return some (.ragged d.width)
  if !(d.train.labels.all (·.isFinite) && d.valid.labels.all (·.isFinite)) then
    return some .labelNotFinite
  if !(d.train.features.all (·.isFinite) && d.valid.features.all (·.isFinite)) then
    return some .featureNotFinite
  return none

end TrainingData

theorem Samples.size_push (s : Samples) (row : Row) (label : Float32) :
    (s.push row label).size = s.size + 1 := by
  simp [push, size]

theorem Samples.features_push (s : Samples) (row : Row) (label : Float32) :
    (s.push row label).features = s.features ++ row := rfl

end CacheReplay.Regression
