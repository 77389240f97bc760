import CacheReplay.Regression.Model
import CacheReplay.Regression.Tree

set_option autoImplicit false

namespace CacheReplay.Regression

structure Boosted where
  settings : Settings
  base : Float32
  trees : List Tree
  fitted : Bool

namespace Boosted

def unfitted (settings : Settings) : Boosted := ⟨settings, 0, [], false⟩

def score (base : Float32) (trees : List Tree) (x : Row) : Float32 :=
  base + Floating.sum32 (trees.map (·.predict x))

def predict (m : Boosted) (x : Row) : Float32 := if m.fitted then score m.base m.trees x else 0

end Boosted

def rootMeanSquare (predictions labels : List Float32) : Float :=
  if labels.isEmpty then 0
  else
    let squares := (predictions.zip labels).map fun (p, y) =>
      (p.toFloat - y.toFloat) * (p.toFloat - y.toFloat)
    (Floating.sum squares / Floating.ofNat labels.length).sqrt

/-- Whether a round has left the validation error about where it was. -/
def Settings.settled (s : Settings) (last error : Float) : Bool :=
  error == 0 || (last - error).abs / error < s.tolerance

structure Lesson where
  width : Nat
  trainRows : Array Row
  trainLabels : List Float32
  validRows : Array Row
  validLabels : List Float32

def Lesson.ofData (d : TrainingData) : Checked Lesson := do
  let trainRows ← d.train.rows d.width
  let validRows ← d.valid.rows d.width
  pure ⟨d.width, trainRows, d.train.labels.toList, validRows, d.valid.labels.toList⟩

def Lesson.mean (l : Lesson) : Float32 :=
  Floating.sum32 l.trainLabels / Floating.ofNat32 l.trainLabels.length

structure Progress where
  /-- The trees grown so far, the latest first. -/
  trees : List Tree
  trainPredictions : List Float32
  validPredictions : List Float32
  lastError : Float
  stable : Nat

namespace Progress

def start (base : Float32) (l : Lesson) : Progress :=
  ⟨[], l.trainLabels.map fun _ => base, l.validLabels.map fun _ => base, 0, 0⟩

def extend (s : Settings) (l : Lesson) (p : Progress) : Checked Progress := do
  let residuals := (l.trainLabels.zipWith (· - ·) p.trainPredictions).toArray
  let tree ← Tree.ofResiduals s ⟨l.width, l.trainRows, residuals⟩
  let add (rows : Array Row) (predictions : List Float32) : List Float32 :=
    predictions.zipWith (fun q x => q + tree.predict x) rows.toList
  pure { p with
    trees := tree :: p.trees
    trainPredictions := add l.trainRows p.trainPredictions
    validPredictions := add l.validRows p.validPredictions }

/-- Notes the validation error; answers whether boosting should stop. -/
def assess (s : Settings) (l : Lesson) (p : Progress) : Bool × Progress :=
  if l.validLabels.length < s.minValid then (false, p)
  else
    let error := rootMeanSquare p.validPredictions l.validLabels
    if s.settled p.lastError error then
      let stable := p.stable + 1
      (decide (s.stableRounds ≤ stable), { p with stable, lastError := error })
    else (false, { p with stable := 0, lastError := error })

def boost (s : Settings) (l : Lesson) : Nat → Progress → Checked Progress
  | 0, p => pure p
  | rounds + 1, p => do
    let p ← p.extend s l
    let (stop, p) := p.assess s l
    if stop then pure p else boost s l rounds p

end Progress

/--
Fits the trees. Data that is unfit leaves the model as it was; predictions that
are not finite leave it without trees.
-/
def Boosted.fit (m : Boosted) (d : TrainingData) : Checked (Except FitError Unit × Boosted) := do
  match ← d.flaw with
  | some e => pure (.error e, m)
  | none =>
    let l ← Lesson.ofData d
    let base := l.mean
    let p ← Progress.boost m.settings l m.settings.maxRounds (.start base l)
    let trees := p.trees.reverse
    if l.trainRows.all fun x => (score base trees x).isFinite then
      pure (.ok (), { m with base, trees, fitted := true })
    else pure (.error .predictionNotFinite, { m with base, trees := [], fitted := false })

instance : Regressor Boosted where
  name _ := "gbt"
  fit := Boosted.fit
  predict := Boosted.predict
  fitted := Boosted.fitted

theorem Boosted.predict_of_not_fitted {m : Boosted} (h : m.fitted = false) (x : Row) :
    m.predict x = 0 := by
  simp [predict, h]

end CacheReplay.Regression
