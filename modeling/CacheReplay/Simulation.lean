import CacheReplay.Floating
import CacheReplay.Policy.Any

set_option autoImplicit false

/-!
# Simulations

A simulation replays a trace through a cache. Requests of the warmup fill the
cache without being counted. Clock times are shifted so that the first request
comes at zero; hints of next accesses are shifted past a separate warmup trace.
-/
namespace CacheReplay

/-- Requests that warm the cache without being counted. -/
inductive Warmup where
  | none
  | fraction (x : Float)
  | seconds (n : Int)
  | trace (rs : List Request)

structure Statistics where
  policy : String
  capacity : Nat
  requests : Nat
  misses : Nat
  requestBytes : Nat
  missBytes : Nat
  warmupRequests : Nat
  expired : Nat
  objects : Nat
  occupied : Nat
  deriving Repr, DecidableEq

namespace Statistics

def ratio (part whole : Nat) : Float :=
  if whole = 0 then 0 else Floating.ofNat part / Floating.ofNat whole

def missRatio (s : Statistics) : Float := ratio s.misses s.requests

def byteMissRatio (s : Statistics) : Float := ratio s.missBytes s.requestBytes

def hitRatio (s : Statistics) : Float := if s.requests = 0 then 0 else 1 - s.missRatio

end Statistics

/-- How the times of a trace are shifted for a replay. -/
structure Shift where
  base : Int
  offset : Int
  deriving Repr, DecidableEq

def Shift.apply (h : Shift) (r : Request) : Checked Request := do
  let time ← subTime r.time h.base
  let next ← r.next.mapM (addTime · h.offset)
  pure { r with time, next }

def firstTime? (rs : List Request) : Option Int := rs.head?.map (·.time)

def Warmup.leading (w : Warmup) (length : Nat) : Nat :=
  match w with
  | .fraction x => Floating.toNat (Floating.ofNat length * Floating.clamp x 0 1)
  | _ => 0

def Warmup.covers (w : Warmup) (length position : Nat) (r : Request) : Bool :=
  match w with
  | .fraction _ => position < w.leading length
  | .seconds n => r.time < n
  | _ => false

def Warmup.preamble : Warmup → List Request
  | .trace rs => rs
  | _ => []

/-- The shift of a replay: a separate warmup trace sets the base if it has a request. -/
def Warmup.shift (w : Warmup) (rs : List Request) : Shift :=
  ⟨((firstTime? w.preamble).or (firstTime? rs)).getD 0, w.preamble.length⟩

structure Counters where
  requests : Nat
  misses : Nat
  requestBytes : Nat
  missBytes : Nat
  warmupRequests : Nat
  /-- Objects that had been found expired by the end of the warmup. -/
  expiredBefore : Nat

namespace Counters

def count (n : Counters) (r : Request) (hit : Bool) : Checked Counters := do
  let requestBytes ← addWord n.requestBytes r.size
  if hit then pure { n with requests := n.requests + 1, requestBytes }
  else do
    let missBytes ← addWord n.missBytes r.size
    pure { n with
      requests := n.requests + 1, requestBytes, misses := n.misses + 1, missBytes }

def pass (n : Counters) (expired : Nat) : Counters :=
  { n with warmupRequests := n.warmupRequests + 1, expiredBefore := expired }

end Counters

section
variable {σ : Type} [EvictionPolicy σ]
open EvictionPolicy

def preheat (shift : Shift) : List Request → σ → Checked σ
  | [], s => pure s
  | r :: rs, s => do
    let r ← shift.apply r
    let (_, s) ← serve s r
    preheat shift rs s

def replay (w : Warmup) (shift : Shift) (length : Nat) :
    Nat → List Request → σ → Counters → Checked (σ × Counters)
  | _, [], s, n => pure (s, n)
  | position, r :: rs, s, n => do
    let r ← shift.apply r
    let (hit, s) ← serve s r
    let n ← if w.covers length position r then pure (n.pass (account s).expired) else n.count r hit
    replay w shift length (position + 1) rs s n

def simulate (rs : List Request) (s : σ) (w : Warmup) : Checked (Statistics × σ) := do
  let shift := w.shift rs
  let s ← preheat { shift with offset := 0 } w.preamble s
  let start : Counters := ⟨0, 0, 0, 0, w.preamble.length, (account s).expired⟩
  let (s, n) ← replay w shift rs.length 0 rs s start
  let a := account s
  let expired ← subWord a.expired n.expiredBefore
  pure ({
    policy := name s
    capacity := a.capacity
    requests := n.requests
    misses := n.misses
    requestBytes := n.requestBytes
    missBytes := n.missBytes
    warmupRequests := n.warmupRequests
    expired := expired
    objects := a.objects
    occupied := a.occupied }, s)

end

section
open Regression
variable {μ : Type} [Regressor μ]

def Blueprint.buildAll (b : Blueprint μ) (kind : PolicyKind) (capacities : List Nat) :
    Except ConfigError (List (AnyCache (Boosted ⊕ μ))) :=
  capacities.mapM fun capacity => { b with capacity }.build kind

/-- Replays a trace through one cache per capacity; the statistics follow the capacities. -/
def simulateAt (rs : List Request) (b : Blueprint μ) (kind : PolicyKind) (capacities : List Nat)
    (w : Warmup) : Checked (Except ConfigError (List Statistics)) :=
  match b.buildAll kind capacities with
  | .error e => pure (.error e)
  | .ok caches => do
    let stats ← caches.mapM fun c => do
      let (stats, _) ← simulate rs c w
      pure stats
    pure (.ok stats)

/--
The multiples of a step from the `i`-th on, up to a limit. The first multiple
beyond the limit is worked out too, and so is the number of the next one.
-/
def multiplesFrom (step limit i : Nat) : Checked (List Nat) :=
  if next : IsWord (i + 1) then do
    let size ← mulWord i step
    if size ≤ limit then
      let sizes ← multiplesFrom step limit (i + 1)
      pure (size :: sizes)
    else pure []
  else throw .overflow
termination_by wordBound - i
decreasing_by exact Nat.sub_lt_sub_left (Nat.lt_of_succ_lt next) (Nat.lt_succ_self i)

def simulateSteps (rs : List Request) (b : Blueprint μ) (kind : PolicyKind) (step limit : Nat)
    (w : Warmup) : Checked (Except ConfigError (List Statistics)) :=
  if step = 0 then pure (.error .zeroStep)
  else do
    let capacities ← multiplesFrom step limit 1
    simulateAt rs b kind capacities w

end

end CacheReplay
