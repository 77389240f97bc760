import CacheReplay.Floating
import CacheReplay.GLCache.Segment

set_option autoImplicit false

namespace CacheReplay.GLCache

/-- By utility, then by time of creation, then by logical time of creation. -/
def Segment.ranksBefore (a b : Segment) : Bool :=
  let x := Floating.orderKey a.utility
  let y := Floating.orderKey b.utility
  decide (x < y ∨ x = y ∧ (a.createTime < b.createTime ∨
    a.createTime = b.createTime ∧ a.createNow ≤ b.createNow))

theorem Segment.ranksBefore_total (a b : Segment) : (a.ranksBefore b || b.ranksBefore a) = true := by
  simp only [ranksBefore, Bool.or_eq_true, decide_eq_true_eq]
  omega

theorem Segment.ranksBefore_trans (a b c : Segment) (hab : a.ranksBefore b = true)
    (hbc : b.ranksBefore c = true) : a.ranksBefore c = true := by
  simp only [ranksBefore, decide_eq_true_eq] at *
  omega

namespace Table

def rankingOrder (t : Table) : List Slot :=
  let entries := t.live.filterMap fun i => (t.get? i).map fun s => (i, s)
  (entries.mergeSort fun a b => a.2.ranksBefore b.2).map (·.1)

def rankLast (t : Table) (rank : Nat) (i : Slot) : Table :=
  match t.get? i with
  | none => t
  | some s =>
    let t := t.modify i fun s => { s with rank := some rank, nextRanked := none }
    let tail := (t.bucket s.bucket).rankedTail
    let t := match tail with
      | some j => t.modify j fun r => { r with nextRanked := some i }
      | none => t
    t.modifyBucket s.bucket fun b =>
      { b with rankedHead := if tail.isSome then b.rankedHead else some i, rankedTail := some i }

def rankFrom : Nat → List Slot → Table → Table
  | _, [], t => t
  | rank, i :: rest, t => rankFrom (rank + 1) rest (t.rankLast rank i)

/-- The size of the slot array for `n` ranked segments; it never shrinks. -/
def Ranking.room (slots n : Nat) : Nat := if slots < n then n * 2 else slots

def rerank (t : Table) : Table :=
  let order := t.rankingOrder
  let room := Ranking.room t.ranking.slots.size order.length
  let slots := (order.map some).toArray ++ Array.replicate (room - order.length) none
  let t := { t with
    buckets := t.buckets.mapIdx fun k b =>
      if k < liveBuckets then { b with rankedHead := none, rankedTail := none } else b
    ranking := ⟨slots, some 0, order.length⟩ }
  rankFrom 0 order t

def growRanking (t : Table) : Bool × Table :=
  if t.ranking.slots.size < t.inUse then
    (true, { t with ranking := { t.ranking with slots := .replicate (t.inUse * 2) none } })
  else (false, t)

def rankingDue (t : Table) (fraction : Float) : Bool :=
  match t.ranking.position with
  | none => true
  | some p => Floating.ofNat t.ranking.count * fraction ≤ Floating.ofNat p

theorem rankingOrder_perm (t : Table) :
    t.rankingOrder.Perm (t.live.filter fun i => (t.get? i).isSome) := by
  have h : t.live.filter (fun i => (t.get? i).isSome) =
      (t.live.filterMap fun i => (t.get? i).map fun s => (i, s)).map (·.1) := by
    induction t.live with
    | nil => rfl
    | cons i rest ih =>
      cases e : t.get? i with
      | none => simp [e, ih]
      | some s => simp [e, ih]
  rw [h]
  exact (List.mergeSort_perm ..).map _

end Table
end CacheReplay.GLCache
