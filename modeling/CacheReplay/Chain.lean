import CacheReplay.Arena
import CacheReplay.Word

set_option autoImplicit false

/-!
# Chains

A chain is a doubly linked sequence of records that live in an arena. The chain
itself holds its two ends and its length; each record holds the handles of its
neighbours. Several chains may share one arena as long as a record is in at
most one of them.

The operations follow the links they find. What they do to a sequence is
stated for a chain that `Represents` one; on any other chain they still end.
-/
namespace CacheReplay

structure Links where
  prev : Option Slot
  next : Option Slot
  deriving Repr, DecidableEq

def Links.detached : Links := ⟨none, none⟩

instance : Inhabited Links := ⟨.detached⟩

class Linked (α : Type) where
  links : α → Links
  withLinks : α → Links → α

namespace Arena
variable {α : Type} [Linked α]

def links? (a : Arena α) (i : Slot) : Option Links := (a.get? i).map Linked.links

def relink (a : Arena α) (i : Slot) (f : Links → Links) : Arena α :=
  a.modify i fun r => Linked.withLinks r (f (Linked.links r))

def setNext (a : Arena α) (i : Option Slot) (n : Option Slot) : Arena α :=
  match i with
  | some i => a.relink i fun l => { l with next := n }
  | none => a

def setPrev (a : Arena α) (i : Option Slot) (p : Option Slot) : Arena α :=
  match i with
  | some i => a.relink i fun l => { l with prev := p }
  | none => a

def nextOf (a : Arena α) (i : Slot) : Option Slot := (a.links? i).bind (·.next)

def prevOf (a : Arena α) (i : Slot) : Option Slot := (a.links? i).bind (·.prev)

/-- The handles met from `start` on, ending at a missing record; `steps` bounds the walk. -/
def walk (a : Arena α) (forward : Bool) : Nat → Option Slot → List Slot
  | 0, _ => []
  | _ + 1, none => []
  | steps + 1, some i =>
    match a.links? i with
    | none => []
    | some l => i :: a.walk forward steps (if forward then l.next else l.prev)

end Arena

structure Chain where
  front : Option Slot
  back : Option Slot
  length : Nat
  deriving Repr, DecidableEq

namespace Chain
variable {α : Type} [Linked α]

def empty : Chain := ⟨none, none, 0⟩

instance : Inhabited Chain := ⟨empty⟩

def isEmpty (c : Chain) : Bool := c.length == 0

def pushFront (c : Chain) (a : Arena α) (i : Slot) : Chain × Arena α :=
  if a.contains i then
    let a := (a.relink i fun _ => ⟨none, c.front⟩).setPrev c.front (some i)
    (⟨some i, if c.front.isSome then c.back else some i, c.length + 1⟩, a)
  else (c, a)

def pushBack (c : Chain) (a : Arena α) (i : Slot) : Chain × Arena α :=
  if a.contains i then
    let a := (a.relink i fun _ => ⟨c.back, none⟩).setNext c.back (some i)
    (⟨if c.back.isSome then c.front else some i, some i, c.length + 1⟩, a)
  else (c, a)

def insertBefore (c : Chain) (a : Arena α) (anchor i : Slot) : Chain × Arena α :=
  match a.links? anchor with
  | none => (c, a)
  | some l =>
    let a := a.relink i fun _ => ⟨l.prev, some anchor⟩
    let a := (a.setPrev (some anchor) (some i)).setNext l.prev (some i)
    (⟨if l.prev.isSome then c.front else some i, c.back, c.length + 1⟩, a)

/-- Detaches a record of this chain. The length underflows when the record was in another one. -/
def unlink (c : Chain) (a : Arena α) (i : Slot) : Checked (Chain × Arena α) :=
  match a.links? i with
  | none => .ok (c, a)
  | some ⟨prev, next⟩ => do
    let a := ((a.setNext prev next).setPrev next prev).relink i fun _ => .detached
    let front := if prev.isSome then c.front else next
    let back := if next.isSome then c.back else prev
    let length ← subWord c.length 1
    pure (⟨front, back, length⟩, a)

def moveToFront (c : Chain) (a : Arena α) (i : Slot) : Checked (Chain × Arena α) :=
  if c.front = some i then pure (c, a)
  else do
    let (c, a) ← c.unlink a i
    pure (c.pushFront a i)

def moveToBack (c : Chain) (a : Arena α) (i : Slot) : Checked (Chain × Arena α) :=
  if c.back = some i then pure (c, a)
  else do
    let (c, a) ← c.unlink a i
    pure (c.pushBack a i)

def popFront (c : Chain) (a : Arena α) : Checked (Option Slot × Chain × Arena α) :=
  match c.front with
  | none => pure (none, c, a)
  | some i => do
    let r ← c.unlink a i
    pure (some i, r)

def popBack (c : Chain) (a : Arena α) : Checked (Option Slot × Chain × Arena α) :=
  match c.back with
  | none => pure (none, c, a)
  | some i => do
    let r ← c.unlink a i
    pure (some i, r)

/-- Front to back. A walk without repetition meets every cell of the arena at most once. -/
def toList (c : Chain) (a : Arena α) : List Slot := a.walk true a.cells.size c.front

def toListRev (c : Chain) (a : Arena α) : List Slot := a.walk false a.cells.size c.back

structure Tour where
  seen : List Slot
  count : Nat
  before : Option Slot
  current : Option Slot

def tour (c : Chain) : Tour := ⟨[], 0, none, c.front⟩

/--
Looks at the next record: a verdict, or how far the validation has come then. A
record is refused if it was met before, is missing, does not name the one before
it, ends the chain anywhere but at the back, or is one too many.
-/
def inspect (c : Chain) (a : Arena α) (t : Tour) : Bool ⊕ Tour :=
  match t.current with
  | none => .inl (t.count == c.length)
  | some i =>
    if i ∈ t.seen then .inl false
    else
      match a.links? i with
      | none => .inl false
      | some l =>
        if l.prev ≠ t.before then .inl false
        else if l.next = none ∧ c.back ≠ some i then .inl false
        else if c.length < t.count + 1 then .inl false
        else .inr ⟨i :: t.seen, t.count + 1, some i, l.next⟩

theorem inspect_eq_inr_iff {c : Chain} {a : Arena α} {t u : Tour} : c.inspect a t = .inr u ↔
    ∃ i next, t.current = some i ∧ i ∉ t.seen ∧ a.links? i = some ⟨t.before, next⟩ ∧
      (next = none → c.back = some i) ∧ t.count < c.length ∧
      u = ⟨i :: t.seen, t.count + 1, some i, next⟩ := by
  unfold inspect
  constructor
  · intro h
    split at h
    · cases h
    · rename_i i current
      split at h
      · cases h
      · rename_i fresh
        split at h
        · cases h
        · rename_i l links
          split at h
          · cases h
          · rename_i prev
            split at h
            · cases h
            · rename_i last
              split at h
              · cases h
              · cases h
                obtain ⟨before, next⟩ := l
                rw [Decidable.not_not] at prev
                subst prev
                refine ⟨i, next, current, fresh, links, fun none => ?_, by omega, rfl⟩
                exact Decidable.not_not.mp fun other => last ⟨none, other⟩
  · rintro ⟨i, next, current, fresh, links, last, within, rfl⟩
    rw [current]
    dsimp only
    rw [if_neg fresh, links]
    dsimp only
    rw [if_neg (not_not_intro rfl), if_neg fun h => h.2 (last h.1), if_neg (by omega)]

def conclude (c : Chain) (a : Arena α) (t : Tour) : Bool :=
  match _ : c.inspect a t with
  | .inl verdict => verdict
  | .inr u => c.conclude a u
termination_by c.length - t.count
decreasing_by
  rename_i going
  obtain ⟨i, next, -, -, -, -, within, rfl⟩ := inspect_eq_inr_iff.mp going
  dsimp only
  omega

def validate (c : Chain) (a : Arena α) : Bool :=
  if c.front = none ∨ c.back = none then c.front.isNone && c.back.isNone && c.length == 0
  else c.conclude a c.tour

/--
`s` lists the records of the chain: its ends, its length and, for each record,
the neighbours that the record itself names.
-/
structure Represents (c : Chain) (a : Arena α) (s : List Slot) : Prop where
  nodup : s.Nodup
  front_eq : c.front = s.head?
  back_eq : c.back = s.getLast?
  length_eq : c.length = s.length
  links_eq : ∀ k (h : k < s.length),
    a.links? s[k] = some ⟨if k = 0 then none else s[k - 1]?, s[k + 1]?⟩

theorem represents_empty (a : Arena α) : Represents empty a [] :=
  ⟨List.nodup_nil, rfl, rfl, rfl, fun _ h => absurd h (Nat.not_lt_zero _)⟩

theorem pushFront_of_not_contains {c : Chain} {a : Arena α} {i : Slot}
    (h : a.contains i = false) : c.pushFront a i = (c, a) := by
  simp [pushFront, h]

theorem pushBack_of_not_contains {c : Chain} {a : Arena α} {i : Slot}
    (h : a.contains i = false) : c.pushBack a i = (c, a) := by
  simp [pushBack, h]

theorem unlink_of_links?_eq_none {c : Chain} {a : Arena α} {i : Slot}
    (h : a.links? i = none) : c.unlink a i = .ok (c, a) := by
  simp [unlink, h]

end Chain
end CacheReplay
