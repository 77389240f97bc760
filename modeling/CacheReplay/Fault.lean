set_option autoImplicit false

namespace CacheReplay

inductive Fault where
  | overflow
  | outOfBounds
  | alreadyCached (id : Nat)
  | counterWidth (bits : Nat)
  /-- The index names another cell, or none, for a record that is deleted. -/
  | misindexed (indexed : Option Nat) (cell : Nat)
  | releasedUncharged
  | mergedAcrossBuckets
  | dividedByZero
  | emptyRange
  | crossedBounds
  deriving Repr, DecidableEq

abbrev Checked (α : Type) := Except Fault α

theorem bind_eq_ok_iff {ε α β : Type} {x : Except ε α} {f : α → Except ε β} {b : β} :
    (x >>= f) = .ok b ↔ ∃ a, x = .ok a ∧ f a = .ok b := by
  cases x with
  | error e => exact ⟨fun h => (nomatch h), fun ⟨_, h, _⟩ => (nomatch h)⟩
  | ok a => exact ⟨fun h => ⟨a, rfl, h⟩, fun ⟨_, h, k⟩ => by cases h; exact k⟩

def maxCounterBits : Nat := 16

def slotText : Option Nat → String
  | none => "None"
  | some i => s!"Some(SlotId({i}))"

/-- The text of an assertion; arithmetic and index faults carry none. -/
def Fault.message? : Fault → Option String
  | .overflow => none
  | .outOfBounds => none
  | .alreadyCached id => some s!"insert of object {id} which is already cached"
  | .counterWidth bits => some s!"counter bits must be in 1..={maxCounterBits}, got {bits}"
  | .misindexed indexed cell => some
    s!"assertion `left == right` failed\n  left: {slotText indexed}\n right: {slotText (some cell)}"
  | .releasedUncharged => some "released more than was charged"
  | .mergedAcrossBuckets => some "merged segments are not in one live bucket"
  | .dividedByZero => none
  | .emptyRange => some "cannot sample empty range"
  | .crossedBounds => some "assertion failed: min <= max"

end CacheReplay
