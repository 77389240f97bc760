set_option autoImplicit false

/-!
# Arenas

An arena keeps values in numbered cells. The free cells form a stack: each one
names the cell that was freed before it. The cell freed last is handed out
first; a new cell is made only when none is free. A handle stays valid while
its value is present and may be handed out again afterwards.
-/
namespace CacheReplay

abbrev Slot := Nat

inductive Cell (α : Type) where
  | full (v : α)
  /-- The cell that was freed before this one, if it is still free. -/
  | free (below : Option Slot)

namespace Cell
variable {α β : Type}

def value? : Cell α → Option α
  | full v => some v
  | free _ => none

def map (f : α → β) : Cell α → Cell β
  | full v => full (f v)
  | free below => free below

@[simp] theorem value?_map (f : α → β) (c : Cell α) : (c.map f).value? = c.value?.map f := by
  cases c <;> rfl

end Cell

structure Arena (α : Type) where
  cells : Array (Cell α)
  top : Option Slot
  size : Nat

namespace Arena
variable {α : Type}

def empty : Arena α := ⟨#[], none, 0⟩

instance : Inhabited (Arena α) := ⟨empty⟩

def get? (a : Arena α) (i : Slot) : Option α := a.cells[i]?.bind Cell.value?

def contains (a : Arena α) (i : Slot) : Bool := (a.get? i).isSome

def isEmpty (a : Arena α) : Bool := a.size == 0

def pop (cells : Array (Cell α)) (top : Slot) : Option Slot :=
  match cells[top]? with
  | some (.free below) => below
  | _ => some top

def insert (a : Arena α) (v : α) : Slot × Arena α :=
  match a with
  | ⟨cells, some i, size⟩ => (i, ⟨cells.setIfInBounds i (.full v), pop cells i, size + 1⟩)
  | ⟨cells, none, size⟩ => (cells.size, ⟨cells.push (.full v), none, size + 1⟩)

/-- Frees a cell and returns what it held; a free cell is left alone. -/
def remove (a : Arena α) (i : Slot) : Option α × Arena α :=
  match a.get? i with
  | none => (none, a)
  | some v => (some v, ⟨a.cells.setIfInBounds i (.free a.top), some i, a.size - 1⟩)

def modify (a : Arena α) (i : Slot) (f : α → α) : Arena α :=
  { a with cells := a.cells.modify i (Cell.map f) }

def toList (a : Arena α) : List (Slot × α) :=
  a.cells.toList.zipIdx.filterMap fun (c, i) => c.value?.map fun v => (i, v)

theorem get?_empty (i : Slot) : (empty : Arena α).get? i = none := by
  simp [empty, get?]

theorem get?_modify (a : Arena α) (i j : Slot) (f : α → α) :
    (a.modify i f).get? j = if i = j then (a.get? j).map f else a.get? j := by
  simp only [modify, get?, Array.getElem?_modify]
  split
  · cases h : a.cells[j]? with
    | none => rfl
    | some c => exact c.value?_map f
  · rfl

theorem size_modify (a : Arena α) (i : Slot) (f : α → α) : (a.modify i f).size = a.size := rfl

theorem remove_of_get?_eq_none {a : Arena α} {i : Slot} (h : a.get? i = none) :
    a.remove i = (none, a) := by
  simp [remove, h]

theorem remove_fst (a : Arena α) (i : Slot) : (a.remove i).1 = a.get? i := by
  unfold remove
  split <;> simp_all

theorem get?_remove (a : Arena α) (i j : Slot) :
    (a.remove i).2.get? j = if i = j then none else a.get? j := by
  unfold remove
  split
  · rename_i h
    split
    · rename_i e; subst e; exact h
    · rfl
  · simp only [get?, Array.getElem?_setIfInBounds]
    split
    · split <;> rfl
    · rfl

theorem mem_toList_iff (a : Arena α) (i : Slot) (v : α) :
    (i, v) ∈ a.toList ↔ a.get? i = some v := by
  simp only [toList, get?, List.mem_filterMap, Option.map_eq_some_iff, Prod.mk.injEq, Prod.exists,
    List.mk_mem_zipIdx_iff_getElem?, Array.getElem?_toList, Option.bind_eq_some_iff]
  constructor
  · rintro ⟨c, k, hk, w, held, rfl, rfl⟩; exact ⟨c, hk, held⟩
  · rintro ⟨c, hk, held⟩; exact ⟨c, i, hk, v, held, rfl, rfl⟩

end Arena
end CacheReplay
