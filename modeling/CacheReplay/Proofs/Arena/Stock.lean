import CacheReplay.Proofs.Arena
import Mathlib.Data.Set.Card

set_option autoImplicit false

namespace CacheReplay

namespace Arena

inductive Command (α : Type) where
  | insert (v : α)
  | remove (i : Slot)
  | get (i : Slot)
  /-- Looks a value up and writes another one in its place. -/
  | modify (i : Slot) (f : α → α)

inductive Reply (α : Type) where
  | handle (i : Slot)
  | value (v : Option α)

variable {α : Type}

def obey (a : Arena α) : Command α → Reply α × Arena α
  | .insert v => (.handle (a.insert v).1, (a.insert v).2)
  | .remove i => (.value (a.remove i).1, (a.remove i).2)
  | .get i => (.value (a.get? i), a)
  | .modify i f => (.value (a.get? i), a.modify i f)

def obeyAll (a : Arena α) : List (Command α) → List (Reply α) × Arena α
  | [] => ([], a)
  | command :: commands =>
    let (reply, a) := a.obey command
    let (replies, a) := a.obeyAll commands
    (reply :: replies, a)

end Arena

structure Stock (α : Type) where
  values : Slot → Option α
  /-- The cells that were freed and not taken again, the latest first. -/
  freed : List Slot
  made : Nat

namespace Stock
open Arena (Command Reply)
variable {α : Type}

def empty : Stock α := ⟨fun _ => none, [], 0⟩

/-- The cell that the next value is put in: the one freed last, or else a new one. -/
def next (s : Stock α) : Slot := s.freed.head?.getD s.made

def insert (s : Stock α) (v : α) : Stock α where
  values := Function.update s.values s.next (some v)
  freed := s.freed.tail
  made := if s.freed = [] then s.made + 1 else s.made

def obey (s : Stock α) : Command α → Reply α × Stock α
  | .insert v => (.handle s.next, s.insert v)
  | .remove i =>
    match s.values i with
    | none => (.value none, s)
    | some v => (.value (some v), ⟨Function.update s.values i none, i :: s.freed, s.made⟩)
  | .get i => (.value (s.values i), s)
  | .modify i f =>
    (.value (s.values i), { s with values := Function.update s.values i ((s.values i).map f) })

def obeyAll (s : Stock α) : List (Command α) → List (Reply α) × Stock α
  | [] => ([], s)
  | command :: commands =>
    let (reply, s) := s.obey command
    let (replies, s) := s.obeyAll commands
    (reply :: replies, s)

end Stock

namespace Arena
variable {α : Type}

/-- Everything that can be asked of the arena has the answer that the stock gives. -/
structure Reflects (a : Arena α) (s : Stock α) : Prop where
  get?_eq : ∀ i, a.get? i = s.values i
  size_eq : a.size = {i | (s.values i).isSome}.ncard
  isEmpty_iff : a.isEmpty = true ↔ ∀ i, s.values i = none
  toList_eq : a.toList = (List.range s.made).filterMap fun i => (s.values i).map fun v => (i, v)
  made_eq : a.cells.size = s.made
  inside : ∀ i, (s.values i).isSome → i < s.made
  stacked : Stacked a.cells a.top s.freed
  nodup : s.freed.Nodup
  free_iff : ∀ i, (∃ below, a.cells[i]? = some (.free below)) ↔ i ∈ s.freed
  mem_freed_iff : ∀ i, i ∈ s.freed ↔ i < s.made ∧ s.values i = none
  next_eq_none : s.values s.next = none

/-- The arena holds the values of the stock, and its free cells are stacked like those. -/
structure Tracks (a : Arena α) (s : Stock α) : Prop where
  sound : a.Sound
  get?_eq : ∀ i, a.get? i = s.values i
  made_eq : a.cells.size = s.made
  stacked : Stacked a.cells a.top s.freed

theorem tracks_empty : (empty : Arena α).Tracks .empty where
  sound := sound_empty
  get?_eq := get?_empty
  made_eq := rfl
  stacked := rfl

namespace Tracks
variable {a : Arena α} {s : Stock α} (h : a.Tracks s)
include h

theorem insert_fst (v : α) : (a.insert v).1 = s.next := by
  rw [(stacked_insert v h.stacked).1, h.made_eq]
  rfl

theorem mem_freed_iff (i : Slot) : i ∈ s.freed ↔ i < a.cells.size ∧ a.get? i = none := by
  obtain ⟨t, chain, cover⟩ := h.sound.stacked
  rw [h.stacked.unique chain]
  exact ⟨get?_of_stacked chain, fun ⟨inside, free⟩ => cover i inside free⟩

theorem size_eq : a.size = {i | (s.values i).isSome}.ncard := by
  have held : {i | (s.values i).isSome} = ((a.toList.map (·.1)).toFinset : Set Slot) := by
    ext i
    simp only [Set.mem_ofPred_eq, List.coe_toFinset, List.mem_map, Prod.exists, exists_and_right,
      exists_eq_right, mem_toList_iff, ← h.get?_eq, Option.isSome_iff_exists]
  rw [held, Set.ncard_coe_finset, List.toFinset_card_of_nodup a.nodup_toList_fst]
  refine (h.sound.length_eq a.nodup_toList_fst fun i => ?_).symm
  simp only [List.mem_map, Prod.exists, exists_and_right, exists_eq_right, mem_toList_iff]

theorem reflects : a.Reflects s where
  get?_eq := h.get?_eq
  size_eq := h.size_eq
  isEmpty_iff := by
    rw [isEmpty, beq_iff_eq, h.sound.size_eq, total_eq_zero_iff]
    constructor
    · intro none i
      rw [← h.get?_eq, Option.eq_none_iff_forall_ne_some]
      exact fun v held => Nat.one_ne_zero (none i v held)
    · intro none i v held
      rw [h.get?_eq, none] at held
      cases held
  toList_eq := by simp only [toList_eq, h.made_eq, h.get?_eq]
  made_eq := h.made_eq
  inside i held := by
    obtain ⟨v, hv⟩ := Option.isSome_iff_exists.mp held
    rw [← h.made_eq]
    exact lt_of_get? ((h.get?_eq i).trans hv)
  stacked := h.stacked
  nodup := h.stacked.nodup
  free_iff i := by
    refine ⟨fun ⟨below, free⟩ => ?_, h.stacked.free⟩
    exact (h.mem_freed_iff i).mpr ⟨(Array.getElem?_eq_some_iff.mp free).1, get?_of_free free⟩
  mem_freed_iff i := by rw [h.mem_freed_iff, h.made_eq, h.get?_eq]
  next_eq_none := by
    rw [← h.get?_eq]
    cases e : s.freed with
    | nil =>
      rw [Stock.next, e]
      exact get?_of_size_le h.made_eq.le
    | cons i rest =>
      rw [Stock.next, e]
      exact ((h.mem_freed_iff i).mp (by rw [e]; exact List.mem_cons_self)).2

theorem obey (command : Command α) : (a.obey command).1 = (s.obey command).1 ∧
    (a.obey command).2.Tracks (s.obey command).2 := by
  cases command with
  | insert v =>
    refine ⟨congrArg Reply.handle (h.insert_fst v), h.sound.insert v, fun i => ?_, ?_, ?_⟩
    · simp only [Arena.obey, Stock.obey, Stock.insert]
      rw [get?_insert h.sound v, h.insert_fst v, Function.update_apply, h.get?_eq]
    · simp only [Arena.obey, Stock.obey, Stock.insert]
      rw [size_cells_insert v h.stacked, h.made_eq]
    · exact (stacked_insert v h.stacked).2
  | remove i =>
    cases held : s.values i with
    | none =>
      have free : a.get? i = none := (h.get?_eq i).trans held
      simp only [Arena.obey, Stock.obey, held, remove_of_get?_eq_none free]
      exact ⟨trivial, h⟩
    | some v =>
      have full : a.get? i = some v := (h.get?_eq i).trans held
      simp only [Arena.obey, Stock.obey, held, remove_fst, full]
      refine ⟨trivial, h.sound.remove i, fun j => ?_, ?_, stacked_remove full h.stacked⟩
      · dsimp only
        rw [get?_remove, Function.update_apply, h.get?_eq]
        simp only [eq_comm]
      · rw [size_cells_remove, h.made_eq]
  | get i => exact ⟨congrArg Reply.value (h.get?_eq i), h⟩
  | modify i f =>
    refine ⟨congrArg Reply.value (h.get?_eq i), h.sound.modify i f, fun j => ?_, ?_, ?_⟩
    · simp only [Arena.obey, Stock.obey]
      rw [get?_modify, Function.update_apply, h.get?_eq]
      by_cases e : i = j
      · rw [if_pos e, if_pos e.symm, e]
      · rw [if_neg e, if_neg (Ne.symm e)]
    · exact (Array.size_modify ..).trans h.made_eq
    · exact stacked_modify h.stacked i f

theorem obeyAll (commands : List (Command α)) :
    (a.obeyAll commands).1 = (s.obeyAll commands).1 ∧
      (a.obeyAll commands).2.Tracks (s.obeyAll commands).2 := by
  induction commands generalizing a s with
  | nil => exact ⟨rfl, h⟩
  | cons command commands ih =>
    obtain ⟨reply, kept⟩ := h.obey command
    obtain ⟨replies, last⟩ := ih kept
    refine ⟨?_, last⟩
    simp only [Arena.obeyAll, Stock.obeyAll, reply, replies]

end Tracks

/--
Starting empty, an arena and a stock give the same replies to every list of
commands, and afterwards the arena reflects the stock.
-/
theorem obeyAll_reflects (commands : List (Command α)) :
    ((empty : Arena α).obeyAll commands).1 = (Stock.empty.obeyAll commands).1 ∧
      (empty.obeyAll commands).2.Reflects (Stock.empty.obeyAll commands).2 := by
  obtain ⟨replies, tracks⟩ := tracks_empty.obeyAll commands
  exact ⟨replies, tracks.reflects⟩

example : ((empty : Arena String).obeyAll [.insert "a", .insert "b", .insert "c", .remove 0, .remove 2,
    .insert "d", .insert "e", .insert "f"]).1.map (fun | .handle i => i | .value _ => 0) =
      [0, 1, 2, 0, 0, 2, 0, 3] := rfl

end Arena
end CacheReplay
