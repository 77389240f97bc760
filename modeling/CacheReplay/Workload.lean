import CacheReplay.Floating
import CacheReplay.Randomness.Generator
import CacheReplay.Request
import CacheReplay.Word

set_option autoImplicit false

/-!
# Synthetic workloads

A workload describes an endless stream of requests: how keys are popular, how
large their objects are and how many requests arrive per second. The stream is
a function of the description alone.
-/
namespace CacheReplay
open Randomness

inductive Popularity where
  | uniform
  | hotset (fraction probability : Float)
  /-- All keys in turn, again and again. -/
  | scan
  | zipfian (theta : Float)

inductive SizeRule where
  | fixed (size : Nat)
  | perKey (low high : Nat)
  deriving Repr, DecidableEq

namespace SizeRule

def least : SizeRule → Nat
  | .fixed size => max size 1
  | .perKey low _ => max low 1

def most : SizeRule → Nat
  | .fixed size => max size 1
  | .perKey low high => max high (max low 1)

def sizeOf (rule : SizeRule) (key seed : Nat) : Checked Nat :=
  match rule with
  | .fixed _ => pure rule.least
  | .perKey _ _ => do
    let span ← subWord rule.most rule.least
    let count ← addWord span 1
    let offset ← modWord (scramble (UInt64.ofNat key ^^^ UInt64.ofNat seed)).toNat count
    addWord rule.least offset

theorem least_le_most (rule : SizeRule) : rule.least ≤ rule.most := by
  cases rule <;> simp only [least, most] <;> omega

theorem least_pos (rule : SizeRule) : 0 < rule.least := by
  cases rule <;> simp only [least] <;> omega

end SizeRule

structure PowerLaw where
  n : Nat
  theta : Float
  zeta : Float
  alpha : Float
  eta : Float

namespace PowerLaw

def zetaOf (theta : Float) (n : Nat) : Float :=
  n.fold (fun i _ sum => sum + 1 / (Floating.ofNat (i + 1)).pow theta) (-0.0)

/-- An exponent of one would divide by zero and is kept below. -/
def ofTheta (n : Nat) (theta : Float) : PowerLaw :=
  let theta := Floating.clamp theta 0 0.9999
  let zeta := zetaOf theta n
  { n
    theta
    zeta
    alpha := 1 / (1 - theta)
    eta := (1 - (2 / Floating.ofNat n).pow (1 - theta)) / (1 - zetaOf theta 2 / zeta) }

def sample (z : PowerLaw) (u : Float) : Checked Nat := do
  let mass := u * z.zeta
  if mass < 1 then pure 0
  else if mass < 1 + (0.5 : Float).pow z.theta then
    let last ← subWord z.n 1
    pure (min 1 last)
  else
    let spread := Floating.ofNat z.n * (z.eta * u - z.eta + 1).pow z.alpha
    let last ← subWord z.n 1
    pure (min (Floating.toNat spread) last)

end PowerLaw

structure Workload where
  keys : Nat
  popularity : Popularity
  seed : Nat
  sizes : SizeRule
  rate : Nat

namespace Workload

/-- There is always at least one key. -/
def keyCount (w : Workload) : Nat := max w.keys 1

/-- At least one request arrives per second. -/
def pace (w : Workload) : Nat := max w.rate 1

structure Stream where
  random : Generator
  scanned : Nat
  generated : Nat

def start (w : Workload) : Stream := ⟨.ofSeed (UInt64.ofNat w.seed), 0, 0⟩

def law? (w : Workload) : Option PowerLaw :=
  match w.popularity with
  | .zipfian theta => some (.ofTheta w.keyCount theta)
  | _ => none

def draw (low high : Nat) (g : Generator) : Checked (Nat × Generator) :=
  if low < high then
    let (k, g) := g.below (high - low)
    pure (low + k, g)
  else throw .emptyRange

/-- How many keys are hot: at least one and at most all. -/
def hotCount (count : Nat) (fraction : Float) : Checked Nat :=
  let share := (Floating.ofNat count * Floating.clamp fraction 0 1).round
  clampWord (Floating.toNat share) 1 count

def hotKey (count : Nat) (fraction probability : Float) (g : Generator) : Checked (Nat × Generator) := do
  let hot ← hotCount count fraction
  let (u, g) := g.nextUnit
  if u < Floating.clamp probability 0 1 then draw 0 hot g
  else if hot = count then draw 0 count g
  else draw hot count g

def nextKey (w : Workload) (law? : Option PowerLaw) (s : Stream) : Checked (Nat × Stream) :=
  match w.popularity with
  | .uniform => do
    let (k, random) ← draw 0 w.keyCount s.random
    pure (k, { s with random })
  | .hotset fraction probability => do
    let (k, random) ← hotKey w.keyCount fraction probability s.random
    pure (k, { s with random })
  | .scan => do
    let next ← addWord s.scanned 1
    let scanned ← modWord next w.keyCount
    pure (s.scanned, { s with scanned })
  | .zipfian _ => do
    let (u, random) := s.random.nextUnit
    let k ← law?.elim (pure 0) (·.sample u)
    pure (k, { s with random })

def nextRequest (w : Workload) (law? : Option PowerLaw) (s : Stream) :
    Checked (Request × Stream) := do
  let (key, s) ← w.nextKey law? s
  let seconds ← divWord s.generated w.pace
  let generated ← addWord s.generated 1
  let size ← w.sizes.sizeOf key w.seed
  pure (.ofId key size (timeOfWord seconds), { s with generated })

def requestsFrom (w : Workload) (law? : Option PowerLaw) : Nat → Stream → Checked (List Request)
  | 0, _ => pure []
  | n + 1, s => do
    let (r, s) ← w.nextRequest law? s
    let rs ← w.requestsFrom law? n s
    pure (r :: rs)

def requests (w : Workload) (n : Nat) : Checked (List Request) := w.requestsFrom w.law? n w.start

end Workload
end CacheReplay
