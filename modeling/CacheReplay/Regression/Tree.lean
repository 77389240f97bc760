import CacheReplay.Floating
import CacheReplay.Regression.Data

set_option autoImplicit false

/-!
# Regression trees

A tree is an array of nodes whose first one is the root. Growing a tree splits
its rows where the squared error falls most and stops when no split is worth it,
at the depth limit or when too few rows are left.
-/
namespace CacheReplay.Regression

inductive Node where
  | leaf (weight : Float32)
  /-- Rows whose feature is below the threshold go left. -/
  | split (feature : Nat) (threshold : Float32) (left right : Nat)
  deriving Inhabited

structure Tree where
  nodes : Array Node
  deriving Inhabited

namespace Tree

/-- The weight that a row gets from node `i` on in at most `steps` steps. -/
def weightFrom (t : Tree) (x : Row) : Nat → Nat → Float32
  | 0, _ => 0
  | steps + 1, i =>
    match t.nodes[i]? with
    | some (.leaf weight) => weight
    | some (.split feature threshold left right) =>
      t.weightFrom x steps (if x[feature]?.getD 0 < threshold then left else right)
    | none => 0

/-- The weight of a row's leaf. A feature that the row lacks counts as zero. -/
def predict (t : Tree) (x : Row) : Float32 := t.weightFrom x t.nodes.size 0

end Tree

/-- A way to sort rows by their keys. Which of two rows of the same key comes first is up to it. -/
structure Sorting where
  sort : List (Float32 × Nat) → List (Float32 × Nat)
  perm : ∀ keyed, (sort keyed).Perm keyed
  sorted : ∀ keyed, (sort keyed).Pairwise fun a b => Floating.totalLE32 a.1 b.1

def Sorting.stable : Sorting where
  sort keyed := keyed.mergeSort fun a b => Floating.totalLE32 a.1 b.1
  perm keyed := List.mergeSort_perm keyed _
  sorted keyed := List.pairwise_mergeSort (fun a b c => Floating.totalLE32_trans a.1 b.1 c.1)
    (fun a b => Floating.totalLE32_total a.1 b.1) keyed

structure Settings where
  maxRounds : Nat
  maxDepth : Nat
  learningRate : Float32
  lambda : Float32
  minRows : Nat
  tolerance : Float
  /-- Rounds without progress after which boosting stops. -/
  stableRounds : Nat
  minValid : Nat
  sorting : Sorting := .stable

def Settings.defaults : Settings where
  maxRounds := 20
  maxDepth := 6
  learningRate := 0.3
  lambda := 1
  minRows := 1
  tolerance := 0.01
  stableRounds := 3
  minValid := 10

structure Residuals where
  width : Nat
  rows : Array Row
  residuals : Array Float32

namespace Residuals

def feature (d : Residuals) (f i : Nat) : Checked Float32 :=
  match (d.rows[i]?).bind (·[f]?) with
  | some x => pure x
  | none => throw .outOfBounds

def residual (d : Residuals) (i : Nat) : Checked Float32 :=
  match d.residuals[i]? with
  | some x => pure x
  | none => throw .outOfBounds

def sortBy (d : Residuals) (sorting : Sorting) (f : Nat) (is : List Nat) :
    Checked (List (Float32 × Nat)) := do
  let keyed ← is.mapM fun i => do pure (← d.feature f i, i)
  pure (sorting.sort keyed)

end Residuals

/-- A way to divide rows: the first `count` of them, sorted by a feature, go left. -/
structure Cut where
  feature : Nat
  threshold : Float32
  count : Nat
  gain : Float

def between (low high : Float32) : Float32 :=
  let middle := low + (high - low) / 2
  if low < middle then middle else high

structure Totals where
  count : Nat
  sum : Float
  score : Float

def partScore (lambda : Float) (count : Nat) (sum : Float) : Float :=
  sum * sum / (Floating.ofNat count + lambda)

/-- The better of two cuts; the earlier one unless the later one gains more. -/
def Cut.better (best : Option Cut) (c : Cut) : Option Cut :=
  match best with
  | none => some c
  | some b => if b.gain < c.gain then some c else some b

def cutAt (s : Settings) (t : Totals) (feature left : Nat) (leftSum : Float) (low high : Float32) :
    Option Cut :=
  let minimum := max s.minRows 1
  if low == high || left < minimum || t.count - left < minimum then none
  else
    let lambda := s.lambda.toFloat
    let gain := partScore lambda left leftSum
      + partScore lambda (t.count - left) (t.sum - leftSum) - t.score
    if 1e-12 < gain then some ⟨feature, between low high, left, gain⟩ else none

def scanColumn (s : Settings) (t : Totals) (feature : Nat) :
    Nat → Float → List (Float32 × Float32) → Option Cut → Option Cut
  | left, leftSum, (low, r) :: (high, r') :: rest, best =>
    let leftSum := leftSum + r.toFloat
    let best := match cutAt s t feature (left + 1) leftSum low high with
      | some c => Cut.better best c
      | none => best
    scanColumn s t feature (left + 1) leftSum ((high, r') :: rest) best
  | _, _, _, best => best

/--
The cut with the greatest gain over the given features. Rows are sorted anew
for each feature, starting from their order by the feature before. There is one
gap fewer between rows than there are rows, so no rows at all are a fault.
-/
def findCut (s : Settings) (d : Residuals) (t : Totals) :
    List Nat → List Nat → Option Cut → Checked (Option Cut)
  | [], _, best => pure best
  | f :: fs, rows, best => do
    let sorted ← d.sortBy s.sorting f rows
    let column ← sorted.mapM fun (x, i) => do pure (x, ← d.residual i)
    let _ ← subWord t.count 1
    findCut s d t fs (sorted.map (·.2)) (scanColumn s t f 0 0 column best)

def chooseCut (s : Settings) (d : Residuals) (rows : List Nat) (sum : Float32) (depth : Nat) :
    Checked (Option Cut) := do
  if depth < s.maxDepth then
    let minimum ← mulWord 2 s.minRows
    if minimum ≤ rows.length then
      let total := sum.toFloat
      let score := partScore s.lambda.toFloat rows.length total
      findCut s d ⟨rows.length, total, score⟩ (List.range d.width) rows none
    else pure none
  else pure none

def Residuals.sum (d : Residuals) (rows : List Nat) : Checked Float32 := do
  let rs ← rows.mapM d.residual
  pure (Floating.sum32 rs)

def leafOf (s : Settings) (count : Nat) (sum : Float32) : Node :=
  .leaf (s.learningRate * sum / (Floating.ofNat32 count + s.lambda))

def divide (count : Nat) (rows : List Nat) : Checked (List Nat × List Nat) :=
  if count ≤ rows.length then pure (rows.take count, rows.drop count) else throw .outOfBounds

/-- Appends a node and gives its number. -/
def pushNode (nodes : Array Node) (n : Node) : Nat × Array Node := (nodes.size, nodes.push n)

def place (nodes : Array Node) (i : Nat) (n : Node) : Checked (Array Node) :=
  if h : i < nodes.size then pure (nodes.set i n) else throw .outOfBounds

/--
Appends a subtree and gives the number of its root. A root that is split is a leaf until
both of its children stand. Both parts of a cut are smaller than the whole, so `fuel` may be
the number of rows.
-/
def grow (s : Settings) (d : Residuals) : Nat → List Nat → Nat → Array Node →
    Checked (Nat × Array Node)
  | 0, rows, _, nodes => do
    let sum ← d.sum rows
    pure (pushNode nodes (leafOf s rows.length sum))
  | fuel + 1, rows, depth, nodes => do
    let sum ← d.sum rows
    let leaf := leafOf s rows.length sum
    match ← chooseCut s d rows sum depth with
    | none => pure (pushNode nodes leaf)
    | some cut => do
      let sorted ← d.sortBy s.sorting cut.feature rows
      let (me, nodes) := pushNode nodes leaf
      let (low, high) ← divide cut.count (sorted.map (·.2))
      let (left, nodes) ← grow s d fuel low (depth + 1) nodes
      let (right, nodes) ← grow s d fuel high (depth + 1) nodes
      let nodes ← place nodes me (.split cut.feature cut.threshold left right)
      pure (me, nodes)

def Tree.ofResiduals (s : Settings) (d : Residuals) : Checked Tree := do
  let (_, nodes) ← grow s d d.rows.size (List.range d.rows.size) 0 #[]
  pure ⟨nodes⟩

end CacheReplay.Regression
