import CacheReplay.Store

set_option autoImplicit false

namespace CacheReplay

structure Account where
  capacity : Nat
  overhead : Nat
  occupied : Nat
  objects : Nat
  requests : Nat
  expired : Nat
  clock : Int
  deriving Repr, DecidableEq, Inhabited

namespace Account

def empty (capacity overhead : Nat) : Account := ⟨capacity, overhead, 0, 0, 0, 0, 0⟩

/-- Logical time: the number of requests seen, the one being served included. -/
def now (a : Account) : Int := timeOfWord a.requests

def footprint (a : Account) (size : Nat) : Checked Nat := addWord size a.overhead

def begin (a : Account) (req : Request) : Checked Account := do
  let requests ← addWord a.requests 1
  pure { a with requests, clock := req.time }

def admits (a : Account) (size : Nat) : Checked Bool := do
  let bytes ← a.footprint size
  pure (decide (bytes ≤ a.capacity))

def needsRoom (a : Account) (size : Nat) : Checked Bool := do
  let bytes ← a.footprint size
  let wanted ← addWord a.occupied bytes
  pure (decide (a.capacity < wanted))

def charge (a : Account) (size : Nat) : Checked Account := do
  let bytes ← a.footprint size
  let occupied ← addWord a.occupied bytes
  let objects ← addWord a.objects 1
  pure { a with occupied, objects }

def release (a : Account) (size : Nat) : Checked Account := do
  let bytes ← a.footprint size
  if bytes ≤ a.occupied ∧ 0 < a.objects then
    pure { a with occupied := a.occupied - bytes, objects := a.objects - 1 }
  else throw .releasedUncharged

def recordExpired (a : Account) : Checked Account := do
  let expired ← addWord a.expired 1
  pure { a with expired }

def footprints {μ : Type} (a : Account) (rs : List (Record μ)) : Checked Nat :=
  rs.foldlM (fun sum r => do addWord sum (← a.footprint r.size)) 0

def audit {μ : Type} (a : Account) (s : Store μ) : Audit Unit := do
  let live := s.liveList.map (·.2)
  let bytes ← a.footprints live
  if live.length ≠ a.objects then throw (.objectCount a.objects live.length)
  if bytes ≠ a.occupied then throw (.byteCount a.occupied bytes)
  if a.capacity < a.occupied then throw (.overCapacity a.occupied a.capacity)
  s.audit

theorem footprint_eq_ok_iff (a : Account) (size bytes : Nat) :
    a.footprint size = .ok bytes ↔ bytes = size + a.overhead ∧ IsWord bytes :=
  addWord_eq_ok_iff ..

end Account
end CacheReplay
