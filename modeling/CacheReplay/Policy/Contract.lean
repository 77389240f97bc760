import CacheReplay.Account

set_option autoImplicit false

/-!
# The contract of a policy

A policy looks objects up, admits them, evicts and removes them. Serving a
request is defined once over these operations: a hit answers at once; a missed
object that fits is admitted after enough has been evicted. What a policy learns
from the outcome comes last.
-/
namespace CacheReplay

inductive Outcome where
  | hit
  | miss
  | expired
  deriving Repr, DecidableEq

class EvictionPolicy (σ : Type) where
  name : σ → String
  account : σ → Account
  withAccount : σ → Account → σ
  /-- Looks an object up; with `update`, also does the bookkeeping of an access. -/
  check : σ → Request → Bool → Checked (Outcome × σ)
  insert : σ → Request → Checked (Slot × σ)
  victim : σ → Request → Audit (Option Nat)
  evict : σ → Request → Checked (Bool × σ)
  remove : σ → Nat → Checked (Bool × σ)
  audit : σ → Audit Unit
  /-- What is left to do after a request was served, as a hit or as a miss. -/
  settle : σ → Bool → Checked σ := fun s _ => pure s
  /-- No more evictions than this can succeed in a row. -/
  evictable : σ → Nat

namespace EvictionPolicy
variable {σ : Type} [EvictionPolicy σ]

/-- Evicts until `req` fits or nothing is cached; answers whether it was possible. -/
def makeRoom (req : Request) : Nat → σ → Checked (Bool × σ)
  | tries, s => do
    let needs ← (account s).needsRoom req.size
    if needs && 0 < (account s).objects then
      match tries with
      | 0 => pure (false, s)
      | tries + 1 => do
        let (evicted, s) ← evict s req
        if evicted then makeRoom req tries s else pure (false, s)
    else pure (true, s)

def takeIn (s : σ) (req : Request) : Checked σ := do
  let fits ← (account s).admits req.size
  if fits then
    let tries := evictable s
    let (made, s) ← makeRoom req tries s
    if made then
      let (_, s) ← insert s req
      pure s
    else pure s
  else pure s

def respond (s : σ) (req : Request) : Checked (Bool × σ) := do
  let (outcome, s) ← check s req true
  match outcome with
  | .hit => pure (true, s)
  | .miss | .expired =>
    let s ← takeIn s req
    pure (false, s)

def serve (s : σ) (req : Request) : Checked (Bool × σ) := do
  let account ← (account s).begin req
  let (hit, s) ← respond (withAccount s account) req
  let s ← settle s hit
  pure (hit, s)

end EvictionPolicy
end CacheReplay
