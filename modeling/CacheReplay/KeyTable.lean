import Std.Data.HashMap

set_option autoImplicit false

namespace CacheReplay

structure KeyTable where
  numbers : Std.HashMap String Nat
  keys : Array String

namespace KeyTable

def empty : KeyTable := ⟨∅, #[]⟩

instance : Inhabited KeyTable := ⟨empty⟩

def size (t : KeyTable) : Nat := t.keys.size

def isEmpty (t : KeyTable) : Bool := t.size == 0

def number? (t : KeyTable) (key : String) : Option Nat := t.numbers[key]?

def key? (t : KeyTable) (n : Nat) : Option String := t.keys[n]?

/-- The number of `key`, which is the next free one on first sight. -/
def intern (t : KeyTable) (key : String) : Nat × KeyTable :=
  match t.number? key with
  | some n => (n, t)
  | none => (t.size, ⟨t.numbers.insert key t.size, t.keys.push key⟩)

theorem number?_intern (t : KeyTable) (key : String) :
    (t.intern key).2.number? key = some (t.intern key).1 := by
  unfold intern
  split
  · assumption
  · simp [number?]

theorem intern_of_number? {t : KeyTable} {key : String} {n : Nat} (h : t.number? key = some n) :
    t.intern key = (n, t) := by
  simp [intern, h]

end KeyTable
end CacheReplay
