import CacheReplay.KeyTable

set_option autoImplicit false

namespace CacheReplay

structure Request where
  id : Nat
  size : Nat
  time : Int
  /-- Logical time of the next request for the same object. -/
  next : Option Int
  ttl : Option Int
  deriving Repr, DecidableEq, Inhabited

def Request.ofId (id size : Nat) (time : Int) : Request := ⟨id, size, time, none, none⟩

/--
Fills in every `next`, given the logical time of the first request. The table
returned with the result holds the first request time of each object.
-/
def annotateFrom (now : Int) : List Request → List Request × Std.HashMap Nat Int
  | [] => ([], ∅)
  | r :: rs =>
    let (rs, seen) := annotateFrom (now + 1) rs
    ({ r with next := seen[r.id]? } :: rs, seen.insert r.id now)

def annotateNextAccess (rs : List Request) : List Request := (annotateFrom 1 rs).1

theorem annotateFrom_length (now : Int) (rs : List Request) :
    (annotateFrom now rs).1.length = rs.length := by
  induction rs generalizing now with
  | nil => rfl
  | cons r rs ih => simp [annotateFrom, ih]

structure KeyedTrace where
  table : KeyTable
  /-- The requests, the latest first. -/
  reversed : List Request

namespace KeyedTrace

def empty : KeyedTrace := ⟨.empty, []⟩

def requests (t : KeyedTrace) : List Request := t.reversed.reverse

def push (t : KeyedTrace) (key : String) (size : Nat) (time : Int) : Nat × KeyedTrace :=
  let (id, table) := t.table.intern key
  (id, ⟨table, .ofId id size time :: t.reversed⟩)

def annotate (t : KeyedTrace) : KeyedTrace :=
  { t with reversed := (annotateNextAccess t.requests).reverse }

theorem requests_push (t : KeyedTrace) (key : String) (size : Nat) (time : Int) :
    (t.push key size time).2.requests =
      t.requests ++ [.ofId (t.push key size time).1 size time] := by
  simp [push, requests]

theorem requests_annotate (t : KeyedTrace) :
    t.annotate.requests = annotateNextAccess t.requests := by
  simp [annotate, requests]

end KeyedTrace
end CacheReplay
