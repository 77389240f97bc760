import CacheReplay.GLCache.Audit
import CacheReplay.Policy.Arc
import CacheReplay.Policy.Clock
import CacheReplay.Policy.Fifo
import CacheReplay.Policy.Kind
import CacheReplay.Policy.Lru
import CacheReplay.Policy.Sieve
import CacheReplay.Regression.Boosting
import CacheReplay.Text.Quoted

set_option autoImplicit false

namespace CacheReplay

open Regression

inductive AnyCache (μ : Type) where
  | fifo (c : Fifo)
  | lru (c : Lru)
  | clock (c : Clock)
  | sieve (c : Sieve)
  | arc (c : Arc)
  | glcache (c : GLCache.Cache μ)

namespace AnyCache
variable {μ : Type}

def kind : AnyCache μ → PolicyKind
  | fifo _ => .fifo
  | lru _ => .lru
  | clock _ => .clock
  | sieve _ => .sieve
  | arc _ => .arc
  | glcache _ => .glcache

def observe [Regressor μ] {α : Type} (f : {σ : Type} → [EvictionPolicy σ] → σ → α) :
    AnyCache μ → α
  | fifo c => f c
  | lru c => f c
  | clock c => f c
  | sieve c => f c
  | arc c => f c
  | glcache c => f c

def map [Regressor μ] (f : {σ : Type} → [EvictionPolicy σ] → σ → σ) : AnyCache μ → AnyCache μ
  | fifo c => fifo (f c)
  | lru c => lru (f c)
  | clock c => clock (f c)
  | sieve c => sieve (f c)
  | arc c => arc (f c)
  | glcache c => glcache (f c)

def query [Regressor μ] {α : Type}
    (f : {σ : Type} → [EvictionPolicy σ] → σ → Checked (α × σ)) : AnyCache μ → Checked (α × AnyCache μ)
  | fifo c => (fun (a, c) => (a, fifo c)) <$> f c
  | lru c => (fun (a, c) => (a, lru c)) <$> f c
  | clock c => (fun (a, c) => (a, clock c)) <$> f c
  | sieve c => (fun (a, c) => (a, sieve c)) <$> f c
  | arc c => (fun (a, c) => (a, arc c)) <$> f c
  | glcache c => (fun (a, c) => (a, glcache c)) <$> f c

instance [Regressor μ] : EvictionPolicy (AnyCache μ) where
  name := observe EvictionPolicy.name
  account := observe EvictionPolicy.account
  withAccount c a := c.map fun c => EvictionPolicy.withAccount c a
  check c req update := c.query fun c => EvictionPolicy.check c req update
  insert c req := c.query fun c => EvictionPolicy.insert c req
  victim c req := c.observe fun c => EvictionPolicy.victim c req
  evict c req := c.query fun c => EvictionPolicy.evict c req
  remove c id := c.query fun c => EvictionPolicy.remove c id
  audit := observe EvictionPolicy.audit
  settle c hit := do
    let (_, c) ← c.query fun c => do
      let c ← EvictionPolicy.settle c hit
      pure ((), c)
    pure c
  evictable := observe EvictionPolicy.evictable

end AnyCache

/-- What a cache is built from, apart from its policy. -/
structure Blueprint (μ : Type) where
  capacity : Nat
  overhead : Nat
  params : String
  model : Option μ

namespace Blueprint
variable {μ : Type}

def ofCapacity (capacity : Nat) : Blueprint μ := ⟨capacity, 0, "", none⟩

def startModel (b : Blueprint μ) : Boosted ⊕ μ :=
  match b.model with
  | some m => .inr m
  | none => .inl (.unfitted .defaults)

def build (b : Blueprint μ) (kind : PolicyKind) : Except ConfigError (AnyCache (Boosted ⊕ μ)) := do
  if b.capacity = 0 then throw .zeroCapacity
  let params ← Params.parse b.params
  match kind with
  | .fifo => do
    params.finish kind.label
    pure (.fifo (.empty b.capacity b.overhead))
  | .lru => do
    params.finish kind.label
    pure (.lru (.empty b.capacity b.overhead))
  | .clock => do
    let c ← Clock.ofParams b.capacity b.overhead params
    pure (.clock c)
  | .sieve => do
    params.finish kind.label
    pure (.sieve (.empty b.capacity b.overhead))
  | .arc => do
    params.finish kind.label
    pure (.arc (.empty b.capacity b.overhead))
  | .glcache => do
    let c ← GLCache.Cache.ofParams b.capacity b.overhead params b.startModel
    pure (.glcache c)

def settings (b : Blueprint μ) : List String :=
  [s!"capacity: {b.capacity}",
    s!"per_obj_overhead: {b.overhead}",
    s!"params: {Text.quote b.params}",
    s!"custom_regressor: {b.model.isSome}"]

def describe (b : Blueprint μ) : String :=
  "CacheBuilder \x7b " ++ ", ".intercalate b.settings ++ " \x7d"

end Blueprint
end CacheReplay
