import CacheReplay.Floating
import CacheReplay.GLCache.Config
import CacheReplay.GLCache.Segment
import CacheReplay.Randomness.Generator

set_option autoImplicit false

namespace CacheReplay.GLCache

structure Moment where
  time : Int
  now : Int
  deriving Repr, DecidableEq

/-- The time from `a` to `b`, one at the least. -/
def age (a b : Int) : Checked Float := do
  let d ← subTime b a
  pure (Floating.ofInt (max d 1))

def Score.eval (kind : Score) (r : Record ObjectTag) (m : Moment) : Checked Float := do
  let size := Floating.ofNat (max r.size 1)
  let freq := Floating.ofNat r.tag.freq
  let idle ← age r.lastAccess m.now
  match kind with
  | .freq => pure freq
  | .freqByte => pure ((freq + 0.01) * 1e6 / size)
  | .ageByte => pure (1e8 / size / idle)
  | .freqAgeByte => pure ((freq + 0.01) * 1e8 / size / idle)
  | .freqAge => do
    let idle ← age r.lastAccessTime m.time
    pure ((freq + 0.01) * 1e6 / idle)
  | .oracle =>
    match r.nextAccess with
    | none => pure 0
    | some next => do
      let ahead ← age m.now next
      pure (1e8 / size / ahead)

def lowest : Float := -1.0 / 0.0

/-- The score that the best `retain` of some objects reach; none is too low when all of them fit. -/
def cutoff (scores : List Float) (retain : Nat) : Checked Float :=
  if scores.length ≤ retain then pure lowest
  else
    match (scores.mergeSort Floating.totalLE)[scores.length - retain]? with
    | some x => pure x
    | none => throw .outOfBounds

def jitterWidth : Float := 0.001

def disturb : List Float → Randomness.Generator → List Float × Randomness.Generator
  | [], g => ([], g)
  | x :: xs, g =>
    let (u, g) := g.nextUnit
    let (rest, g) := disturb xs g
    (x * (1 + (u - 0.5) * jitterWidth) :: rest, g)

def Table.objectsOf (t : Table) (i : Slot) : List Slot :=
  ((t.get? i).map (·.objects.toList)).getD []

def scoresOf (t : Table) (s : Store ObjectTag) (kind : Score) (m : Moment) (run : List Slot) :
    Checked (List Float) :=
  (run.flatMap t.objectsOf).mapM fun i =>
    match s.get? i with
    | none => pure 0
    | some r => kind.eval r m

/--
The value, by future accesses, of what a segment would lose if its `retained`
best objects were kept. The best ones are those of the greatest `kind`, or of
the greatest value themselves when `byFuture` is set.
-/
def lossOf (s : Store ObjectTag) (objects : List Slot) (kind : Score) (m : Moment)
    (byFuture : Bool) (retained : Nat) : Checked Float := do
  let pairs ← (objects.filterMap s.get?).mapM fun r => do
    let value ← Score.oracle.eval r m
    let key ← if byFuture then pure value else kind.eval r m
    pure (key, value)
  let ordered :=
    if 0 < retained then pairs.mergeSort fun a b => Floating.totalLE a.1 b.1 else pairs
  pure (Floating.sum ((ordered.take (ordered.length - retained)).map (·.2)))

theorem cutoff_of_length_le {scores : List Float} {retain : Nat} (h : scores.length ≤ retain) :
    cutoff scores retain = .ok lowest := by
  simp [cutoff, h]
  rfl

theorem disturb_length (xs : List Float) (g : Randomness.Generator) :
    (disturb xs g).1.length = xs.length := by
  induction xs generalizing g with
  | nil => rfl
  | cons x xs ih => simp [disturb, ih]

end CacheReplay.GLCache
