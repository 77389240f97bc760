import CacheReplay.Proofs.Run
import Mathlib.Data.List.Induction

set_option autoImplicit false

namespace CacheReplay

/-- What a queue shows of an object. -/
structure Entry where
  id : Nat
  size : Nat
  expiry : Option Int
  deriving Repr, DecidableEq

namespace Entry

def ofRequest (req : Request) : Entry := ⟨req.id, req.size, req.ttl.map (req.time + ·)⟩

def expiredAt (e : Entry) (time : Int) : Bool := e.expiry.any (· < time)

end Entry

structure PlainQueue where
  capacity : Nat
  overhead : Nat
  entries : List Entry
  expired : Nat
  deriving Repr, DecidableEq

namespace PlainQueue

def empty (capacity overhead : Nat) : PlainQueue := ⟨capacity, overhead, [], 0⟩

def footprints (overhead : Nat) (es : List Entry) : Nat := (es.map fun e => e.size + overhead).sum

def bytes (q : PlainQueue) : Nat := footprints q.overhead q.entries

def find? (q : PlainQueue) (id : Nat) : Option Entry := q.entries.find? (·.id == id)

def without (q : PlainQueue) (id : Nat) : List Entry := q.entries.eraseP (·.id == id)

/-- Entries, the back one first, are dropped one by one until the rest takes up no more than `limit`. -/
def dropUntil (overhead limit : Nat) : List Entry → List Entry
  | [] => []
  | e :: es => if footprints overhead (e :: es) ≤ limit then e :: es else dropUntil overhead limit es

def makeRoom (q : PlainQueue) (need : Nat) : PlainQueue :=
  { q with entries := (dropUntil q.overhead (q.capacity - need) q.entries.reverse).reverse }

def push (q : PlainQueue) (req : Request) : PlainQueue :=
  { q with entries := .ofRequest req :: q.entries }

def takeIn (q : PlainQueue) (req : Request) : PlainQueue :=
  if req.size + q.overhead ≤ q.capacity then (q.makeRoom (req.size + q.overhead)).push req else q

/-- Answers whether the object is there and fresh; an update drops it if it is not. -/
def check (promote : Bool) (q : PlainQueue) (req : Request) (update : Bool) : Bool × PlainQueue :=
  match q.find? req.id with
  | none => (false, q)
  | some e =>
    if e.expiredAt req.time then
      (false, if update then { q with entries := q.without req.id, expired := q.expired + 1 } else q)
    else (true, if update && promote then { q with entries := e :: q.without req.id } else q)

def get (promote : Bool) (q : PlainQueue) (req : Request) : Bool × PlainQueue :=
  let (hit, q) := q.check promote req true
  (hit, if hit then q else q.takeIn req)

def remove (q : PlainQueue) (id : Nat) : Bool × PlainQueue :=
  ((q.find? id).isSome, { q with entries := q.without id })

def evict (q : PlainQueue) : Bool × PlainQueue :=
  (!q.entries.isEmpty, { q with entries := q.entries.dropLast })

def step (promote : Bool) (q : PlainQueue) : Operation → Bool × PlainQueue
  | .get req => q.get promote req
  | .check req update => q.check promote req update
  | .remove id => q.remove id
  | .evict _ => q.evict

def run (promote : Bool) (q : PlainQueue) : List Operation → List Bool × PlainQueue
  | [] => ([], q)
  | op :: ops =>
    let (answer, q) := q.step promote op
    let (answers, q) := q.run promote ops
    (answer :: answers, q)

section
variable (q : PlainQueue) {need : Nat}

theorem makeRoom_of_fits (fits : q.bytes + need ≤ q.capacity) : q.makeRoom need = q := by
  have keep : dropUntil q.overhead (q.capacity - need) q.entries.reverse = q.entries.reverse := by
    cases e : q.entries.reverse with
    | nil => rfl
    | cons x xs =>
      have sum : footprints q.overhead (x :: xs) = q.bytes := by
        rw [← e, bytes, footprints, footprints, List.map_reverse, List.sum_reverse]
      rw [dropUntil, if_pos (by omega)]
  rw [makeRoom, keep, List.reverse_reverse]

theorem makeRoom_of_full (full : q.capacity < q.bytes + need) (small : need ≤ q.capacity) :
    q.makeRoom need = q.evict.2.makeRoom need := by
  cases e : q.entries using List.reverseRecOn with
  | nil =>
    rw [bytes, e] at full
    simp [footprints] at full
    omega
  | append_singleton es x _ =>
    have sum : footprints q.overhead (x :: es.reverse) = q.bytes := by
      rw [bytes, e]
      simp [footprints]
      omega
    unfold makeRoom evict
    rw [e]
    simp [dropUntil]
    omega

example : (PlainQueue.mk 6 1 [⟨3, 1, none⟩, ⟨2, 0, none⟩, ⟨1, 2, none⟩] 0).makeRoom 3 =
    ⟨6, 1, [⟨3, 1, none⟩, ⟨2, 0, none⟩], 0⟩ := by decide

end
end PlainQueue
end CacheReplay
