import CacheReplay.Proofs.Queue.Recency
import Mathlib.Data.List.TakeWhile
import Mathlib.Data.Finset.Card

set_option autoImplicit false

namespace CacheReplay

/-- The line of a cache for objects of one byte after a request, the latest arrival first. -/
def joinLine (capacity : Nat) (line : List Nat) (id : Nat) : List Nat :=
  if id ∈ line then line else (id :: line).take capacity

def lineMisses (capacity : Nat) : List Nat → List Nat → Nat
  | _, [] => 0
  | line, id :: ids =>
    (if id ∈ line then 0 else 1) + lineMisses capacity (joinLine capacity line id) ids

section
variable {capacity : Nat} {line : List Nat} {id : Nat}

theorem joinLine_of_mem (hit : id ∈ line) : joinLine capacity line id = line := if_pos hit

theorem joinLine_of_not_mem (miss : id ∉ line) :
    joinLine capacity line id = (id :: line).take capacity := if_neg miss

theorem length_joinLine_le (within : line.length ≤ capacity) :
    (joinLine capacity line id).length ≤ capacity := by
  unfold joinLine
  split
  · exact within
  · exact List.length_take_le ..

theorem nodup_joinLine (nodup : line.Nodup) : (joinLine capacity line id).Nodup := by
  unfold joinLine
  split
  · exact nodup
  · rename_i miss
    exact (List.take_sublist ..).nodup (List.nodup_cons.mpr ⟨miss, nodup⟩)

theorem mem_joinLine_self (pos : 0 < capacity) : id ∈ joinLine capacity line id := by
  obtain ⟨n, rfl⟩ := Nat.exists_eq_succ_of_ne_zero pos.ne'
  unfold joinLine
  split
  · assumption
  · simp

theorem mem_or_eq_of_mem_joinLine {x : Nat} (h : x ∈ joinLine capacity line id) : x = id ∨ x ∈ line := by
  unfold joinLine at h
  split at h
  · exact .inr h
  · exact List.mem_cons.mp (List.mem_of_mem_take h)

end

def after (id : Nat) (line : List Nat) : List Nat := line.takeWhile (· ≠ id)

section
variable {id x : Nat} {line : List Nat}

theorem after_cons_self : after id (id :: line) = [] := by simp [after]

theorem after_cons_of_ne (ne : x ≠ id) : after id (x :: line) = x :: after id line := by
  simp [after, ne]

theorem length_after_lt (h : id ∈ line) : (after id line).length < line.length := by
  induction line with
  | nil => cases h
  | cons x line ih =>
    by_cases same : x = id
    · subst same
      simp [after_cons_self]
    · have rest := ih (List.mem_of_ne_of_mem (Ne.symm same) h)
      rw [after_cons_of_ne same, List.length_cons, List.length_cons]
      omega

theorem not_mem_after : id ∉ after id line := by
  intro h
  simpa using List.mem_takeWhile_imp h

theorem mem_take_of_length_after_lt {n : Nat} (h : id ∈ line) (short : (after id line).length < n) :
    id ∈ line.take n := by
  induction line generalizing n with
  | nil => cases h
  | cons x line ih =>
    obtain ⟨n, rfl⟩ := Nat.exists_eq_succ_of_ne_zero (Nat.ne_zero_of_lt short)
    rw [List.take_succ_cons]
    by_cases same : x = id
    · rw [same]
      exact List.mem_cons_self
    · rw [after_cons_of_ne same, List.length_cons] at short
      have rest := ih (List.mem_of_ne_of_mem (Ne.symm same) h) (by omega : _ < n)
      exact List.mem_cons_of_mem x rest

theorem after_take_of_mem {n : Nat} (h : id ∈ line.take n) : after id (line.take n) = after id line := by
  induction line generalizing n with
  | nil => simp
  | cons x line ih =>
    obtain ⟨n, rfl⟩ : ∃ k, n = k + 1 := by
      cases n with
      | zero => simp at h
      | succ n => exact ⟨n, rfl⟩
    rw [List.take_succ_cons] at h ⊢
    by_cases same : x = id
    · subst same
      rw [after_cons_self, after_cons_self]
    · rw [after_cons_of_ne same, after_cons_of_ne same, ih (List.mem_of_ne_of_mem (Ne.symm same) h)]

end

/-- Since an object came into a short line and a long one, no more have left the short one than came into it. -/
structure Shown (short long : List Nat) (id : Nat) : Prop where
  mem : id ∈ long
  few : (after id long).countP (· ∉ short) ≤ (after id short).length

theorem length_le_of_subset {xs ys : List Nat} (nodup : xs.Nodup) (sub : ∀ x ∈ xs, x ∈ ys) :
    xs.length ≤ ys.length :=
  (List.subperm_of_subset nodup sub).length_le

namespace Shown
variable {short long : List Nat} {id x : Nat} {small large : Nat}

/-- Others are in both lines, but not more than the short one holds. -/
theorem length_after_lt (h : Shown short long id) (nodup : long.Nodup) (hid : id ∈ short)
    (within : short.length ≤ small) (far : 2 * small ≤ large + 1) :
    (after id long).length < large := by
  have others : ((after id long).filter (· ∈ short)).length ≤ (short.erase id).length := by
    apply length_le_of_subset
    · exact ((List.takeWhile_sublist _).nodup nodup).filter _
    · intro y hy
      rw [List.mem_filter, decide_eq_true_eq] at hy
      have ne : y ≠ id := by
        intro same
        exact not_mem_after (same ▸ hy.1)
      exact (List.mem_erase_of_ne ne).mpr hy.2
  have split := List.length_eq_countP_add_countP (fun y => decide (y ∈ short)) (l := after id long)
  have strangers : (after id long).countP (fun y => decide ¬(decide (y ∈ short) = true)) =
      (after id long).countP (· ∉ short) := by
    simp
  have few := h.few
  have front := CacheReplay.length_after_lt hid
  rw [List.length_erase_of_mem hid] at others
  rw [← List.countP_eq_length_filter] at others
  omega

theorem arrive_short (h : Shown short long id) (nodup : long.Nodup) (within : short.length ≤ small)
    (ne : x ≠ id) (still : id ∈ (x :: short).take small) :
    Shown ((x :: short).take small) long id where
  mem := h.mem
  few := by
    obtain ⟨n, rfl⟩ : ∃ n, small = n + 1 := by
      cases small with
      | zero => simp at still
      | succ n => exact ⟨n, rfl⟩
    have front := after_take_of_mem still
    rw [after_cons_of_ne ne] at front
    have gone : ((after id long).filter (· ∉ (x :: short).take (n + 1))).length ≤
        (short.drop n ++ (after id long).filter (· ∉ short)).length := by
      apply length_le_of_subset
      · exact ((List.takeWhile_sublist _).nodup nodup).filter _
      · intro y hy
        rw [List.mem_filter, decide_eq_true_eq, List.take_succ_cons, List.mem_cons, not_or] at hy
        rw [List.mem_append, List.mem_filter, decide_eq_true_eq]
        by_cases known : y ∈ short
        · rw [← List.take_append_drop n short, List.mem_append] at known
          exact .inl (known.resolve_left hy.2.2)
        · exact .inr ⟨hy.1, known⟩
    have few := h.few
    rw [List.countP_eq_length_filter] at few ⊢
    rw [List.length_append, List.length_drop] at gone
    rw [front, List.length_cons]
    omega

theorem arrive_long (h : Shown short long id) (known : x ∈ short) (ne : x ≠ id) :
    Shown short (x :: long) id where
  mem := List.mem_cons_of_mem x h.mem
  few := by
    rw [after_cons_of_ne ne, List.countP_cons_of_neg (by simpa using known)]
    exact h.few

theorem take (h : Shown short long id) (front : (after id long).length < large) :
    Shown short (long.take large) id := by
  have mem := mem_take_of_length_after_lt h.mem front
  constructor
  · exact mem
  · rw [after_take_of_mem mem]
    exact h.few

theorem self (pos : 0 < large) : Shown short ((id :: long).take large) id := by
  obtain ⟨n, rfl⟩ := Nat.exists_eq_succ_of_ne_zero pos.ne'
  rw [List.take_succ_cons]
  constructor
  · exact List.mem_cons_self
  · simp [after_cons_self]

end Shown

/--
A short line and a long one that saw the same requests. Marked objects came into
the short line when they were in the long one; each stands for a request that
only the short line missed.
-/
structure Credited (small : Nat) (short long : List Nat) (marked : Finset Nat) : Prop where
  within : short.length ≤ small
  nodup : short.Nodup
  nodup_long : long.Nodup
  marked_mem : ∀ id ∈ marked, id ∈ short
  shown : ∀ id ∈ short, id ∉ marked → Shown short long id

theorem Credited.join {small large : Nat} {short long : List Nat} {marked : Finset Nat}
    (h : Credited small short long marked) (far : 2 * small ≤ large + 1) (id : Nat) :
    ∃ marked' : Finset Nat, Credited small (joinLine small short id) (joinLine large long id) marked' ∧
      (if id ∈ long then 0 else 1) + marked'.card ≤ (if id ∈ short then 0 else 1) + marked.card := by
  have within : (joinLine small short id).length ≤ small := length_joinLine_le h.within
  have nodup : (joinLine small short id).Nodup := nodup_joinLine h.nodup
  have nodup_long : (joinLine large long id).Nodup := nodup_joinLine h.nodup_long
  by_cases hs : id ∈ short <;> by_cases hl : id ∈ long
  · rw [joinLine_of_mem hs, joinLine_of_mem hl]
    exact ⟨marked, h, by rw [if_pos hs, if_pos hl]⟩
  · -- The object is marked, since it would still be in the long line otherwise.
    have hm : id ∈ marked := by
      by_contra unmarked
      exact hl (h.shown id hs unmarked).mem
    have pos : 0 < small := Nat.lt_of_lt_of_le (List.length_pos_of_mem hs) h.within
    refine ⟨marked.erase id, ⟨within, nodup, nodup_long, ?_, ?_⟩, ?_⟩
    · intro y hy
      rw [joinLine_of_mem hs]
      exact h.marked_mem y (Finset.mem_of_mem_erase hy)
    · intro y hy unmarked
      rw [joinLine_of_mem hs] at hy ⊢
      rw [joinLine_of_not_mem hl]
      by_cases same : y = id
      · subst same
        exact .self (by omega)
      · have shown := (h.shown y hy fun hy' => unmarked (Finset.mem_erase.mpr ⟨same, hy'⟩)).arrive_long
          hs (Ne.symm same)
        exact shown.take (shown.length_after_lt (List.nodup_cons.mpr ⟨hl, h.nodup_long⟩) hy h.within far)
    · rw [if_neg hl, if_pos hs, Finset.card_erase_of_mem hm]
      have := Finset.card_pos.mpr ⟨id, hm⟩
      omega
  · -- The short line alone misses, and the object that comes in is marked.
    refine ⟨(insert id marked).filter (· ∈ joinLine small short id), ⟨within, nodup, nodup_long, ?_, ?_⟩, ?_⟩
    · intro y hy
      exact (Finset.mem_filter.mp hy).2
    · intro y hy unmarked
      have fresh : y ∉ insert id marked := fun hm => unmarked (Finset.mem_filter.mpr ⟨hm, hy⟩)
      rw [Finset.mem_insert, not_or] at fresh
      rw [joinLine_of_not_mem hs] at hy ⊢
      rw [joinLine_of_mem hl]
      have old : y ∈ short := by
        have := List.mem_of_mem_take hy
        exact List.mem_of_ne_of_mem fresh.1 this
      exact (h.shown y old fresh.2).arrive_short h.nodup_long h.within (Ne.symm fresh.1) hy
    · have filtered := Finset.card_filter_le (insert id marked) (· ∈ joinLine small short id)
      have inserted := Finset.card_insert_le id marked
      rw [if_pos hl, if_neg hs]
      omega
  · refine ⟨marked.filter (· ∈ joinLine small short id), ⟨within, nodup, nodup_long, ?_, ?_⟩, ?_⟩
    · intro y hy
      exact (Finset.mem_filter.mp hy).2
    · intro y hy unmarked
      have pos : 0 < small := Nat.lt_of_lt_of_le (List.length_pos_of_mem hy) within
      have front : id ∈ joinLine small short id := mem_joinLine_self pos
      have fresh : y ∉ marked := fun hm => unmarked (Finset.mem_filter.mpr ⟨hm, hy⟩)
      rw [joinLine_of_not_mem hl]
      by_cases same : y = id
      · subst same
        exact .self (by omega)
      · rw [joinLine_of_not_mem hs] at hy front within ⊢
        have old : y ∈ short := List.mem_of_ne_of_mem same (List.mem_of_mem_take hy)
        have shown := ((h.shown y old fresh).arrive_short h.nodup_long h.within (Ne.symm same) hy).arrive_long
          front (Ne.symm same)
        exact shown.take (shown.length_after_lt (List.nodup_cons.mpr ⟨hl, h.nodup_long⟩) hy within far)
    · have filtered := Finset.card_filter_le marked (· ∈ joinLine small short id)
      rw [if_neg hl, if_neg hs]
      omega

/-- A line that is nearly twice as long, or longer, does not miss more. -/
theorem Credited.misses_le {small large : Nat} {short long : List Nat} {marked : Finset Nat}
    (h : Credited small short long marked) (far : 2 * small ≤ large + 1) (ids : List Nat) :
    lineMisses large long ids ≤ lineMisses small short ids + marked.card := by
  induction ids generalizing short long marked with
  | nil => simp [lineMisses]
  | cons id ids ih =>
    obtain ⟨marked', next, paid⟩ := h.join far id
    have rest := ih next
    rw [lineMisses, lineMisses]
    omega

theorem lineMisses_le_of_far {small large : Nat} (far : 2 * small ≤ large + 1) (ids : List Nat) :
    lineMisses large [] ids ≤ lineMisses small [] ids := by
  have fresh : Credited small [] [] ∅ :=
    ⟨Nat.zero_le _, List.nodup_nil, List.nodup_nil, by simp, by simp⟩
  simpa using fresh.misses_le far ids

example : lineMisses 3 [] [1, 2, 3, 4, 1, 2, 5, 1, 2, 3, 4, 5] = 9 ∧
    lineMisses 5 [] [1, 2, 3, 4, 1, 2, 5, 1, 2, 3, 4, 5] = 5 := by decide

/--
A block of requests ends when the long line has missed as often as it has places.
At its start the short line held the objects `old` beside the latest one; `new`
came into it since. The long line has missed `missed` times in the block, and all
of these objects are old or new.
-/
structure Billed (small large : Nat) (short long : List Nat) (old new : Finset Nat) (missed : Nat)
    (shortMisses longMisses : Nat) : Prop where
  within : short.length ≤ small
  nodup : short.Nodup
  nodup_long : long.Nodup
  few : old.card + 1 ≤ small
  underway : missed < large
  length : missed ≤ long.length
  listed : ∀ id ∈ long.take missed, id ∈ old ∪ new
  known : ∀ id ∈ short, id ∈ old ∪ new ∨ id ∈ long.take (missed + 1)
  bill : (large + 1 - small) * longMisses + large * (old.card + new.card) ≤
    large * shortMisses + (large + 1 - small) * missed

namespace Billed
variable {small large : Nat} {short long : List Nat} {old new : Finset Nat}
  {missed shortMisses longMisses : Nat}

theorem missed_le {k : Nat} (nodup : long.Nodup) (length : k ≤ long.length)
    (listed : ∀ id ∈ long.take k, id ∈ old ∪ new) : k ≤ old.card + new.card := by
  have distinct : (long.take k).toFinset.card = k := by
    rw [List.toFinset_card_of_nodup ((List.take_sublist ..).nodup nodup), List.length_take]
    omega
  have sub : (long.take k).toFinset ⊆ old ∪ new := by
    intro id h
    exact listed id (List.mem_toFinset.mp h)
  have := Finset.card_le_card sub
  have := Finset.card_union_le old new
  omega

theorem settled (h : Billed small large short long old new missed shortMisses longMisses) :
    (large + 1 - small) * longMisses ≤ large * shortMisses := by
  have distinct := missed_le h.nodup_long h.length h.listed
  have few := h.few
  have bill := h.bill
  have share : (large + 1 - small) * missed ≤ large * (old.card + new.card) :=
    Nat.mul_le_mul (by omega) distinct
  omega

theorem arrive_short (h : Billed small large short long old new missed shortMisses longMisses)
    (id : Nat) : Billed small large (joinLine small short id) long old (insert id new) missed
      (shortMisses + 1) longMisses where
  within := length_joinLine_le h.within
  nodup := nodup_joinLine h.nodup
  nodup_long := h.nodup_long
  few := h.few
  underway := h.underway
  length := h.length
  listed x hx := by
    have := h.listed x hx
    simp only [Finset.mem_union, Finset.mem_insert] at this ⊢
    tauto
  known x hx := by
    rcases mem_or_eq_of_mem_joinLine hx with rfl | hx
    · simp
    · have := h.known x hx
      simp only [Finset.mem_union, Finset.mem_insert] at this ⊢
      tauto
  bill := by
    have bill := h.bill
    have inserted := Nat.mul_le_mul_left large (Finset.card_insert_le id new)
    rw [Nat.mul_add] at inserted bill ⊢
    rw [Nat.mul_add large shortMisses]
    omega

theorem arrive_long (h : Billed small large short long old new missed shortMisses longMisses)
    {id : Nat} (miss : id ∉ long) (hid : id ∈ old ∪ new) (front : id ∈ short) (le : small ≤ large) :
    ∃ old' new' missed', Billed small large short (joinLine large long id) old' new' missed'
      shortMisses (longMisses + 1) := by
  have nodup : (joinLine large long id).Nodup := nodup_joinLine h.nodup_long
  have underway := h.underway
  have length := h.length
  have few := h.few
  rw [joinLine_of_not_mem miss] at nodup ⊢
  have top : ∀ k, k < large → ((id :: long).take large).take (k + 1) = id :: long.take k := by
    intro k hk
    rw [List.take_take, Nat.min_eq_left (by omega), List.take_succ_cons]
  have listed : ∀ x ∈ ((id :: long).take large).take (missed + 1), x ∈ old ∪ new := by
    intro x hx
    rw [top missed underway] at hx
    rcases List.mem_cons.mp hx with rfl | hx
    · exact hid
    · exact h.listed x hx
  have long_enough : missed + 1 ≤ ((id :: long).take large).length := by
    rw [List.length_take, List.length_cons]
    omega
  by_cases more : missed + 1 < large
  · refine ⟨old, new, missed + 1, h.within, h.nodup, nodup, h.few, more, long_enough, listed, ?_, ?_⟩
    · intro x hx
      rw [top (missed + 1) more]
      exact (h.known x hx).imp_right (List.mem_cons_of_mem id)
    · have bill := h.bill
      rw [Nat.mul_add _ longMisses, Nat.mul_add _ missed]
      omega
  · -- What the short line holds beside the latest object is old in the new block.
    have distinct := missed_le nodup long_enough listed
    have held : (short.toFinset.erase id).card = short.length - 1 := by
      rw [Finset.card_erase_of_mem (List.mem_toFinset.mpr front), List.toFinset_card_of_nodup h.nodup]
    have pos := List.length_pos_of_mem front
    have within := h.within
    refine ⟨short.toFinset.erase id, ∅, 0, h.within, h.nodup, nodup, by omega, by omega, Nat.zero_le _,
      by simp, ?_, ?_⟩
    · intro x hx
      rw [top 0 (by omega)]
      by_cases same : x = id
      · simp [same]
      · simp [same, hx]
    · have bill := h.bill
      have all : large * large ≤ large * (old.card + new.card) := Nat.mul_le_mul_left large (by omega)
      have split : large * large = large * (small - 1) + (large + 1 - small) * large := by
        rw [Nat.mul_comm (large + 1 - small), ← Nat.mul_add]
        congr 1
        omega
      have rest : large * (short.toFinset.erase id).card ≤ large * (small - 1) :=
        Nat.mul_le_mul_left large (by omega)
      have last : missed + 1 = large := by omega
      have block : (large + 1 - small) * large = (large + 1 - small) * missed + (large + 1 - small) := by
        rw [← Nat.mul_succ, Nat.succ_eq_add_one, last]
      simp only [Finset.card_empty, Nat.add_zero, Nat.mul_zero]
      rw [Nat.mul_add _ longMisses]
      omega

theorem join (h : Billed small large short long old new missed shortMisses longMisses)
    (le : small ≤ large) (id : Nat) : ∃ old' new' missed', Billed small large (joinLine small short id)
      (joinLine large long id) old' new' missed' (shortMisses + if id ∈ short then 0 else 1)
      (longMisses + if id ∈ long then 0 else 1) := by
  by_cases hs : id ∈ short <;> by_cases hl : id ∈ long
  · rw [joinLine_of_mem hs, joinLine_of_mem hl, if_pos hs, if_pos hl]
    exact ⟨old, new, missed, h⟩
  · have hid : id ∈ old ∪ new := by
      rcases h.known id hs with known | recent
      · exact known
      · exact absurd (List.mem_of_mem_take recent) hl
    rw [joinLine_of_mem hs, if_pos hs, if_neg hl]
    exact h.arrive_long hl hid hs le
  · rw [joinLine_of_mem hl, if_neg hs, if_pos hl]
    exact ⟨old, insert id new, missed, h.arrive_short id⟩
  · have few := h.few
    rw [if_neg hs, if_neg hl]
    exact (h.arrive_short id).arrive_long hl (by simp) (mem_joinLine_self (by omega)) le

theorem misses_le (h : Billed small large short long old new missed shortMisses longMisses)
    (le : small ≤ large) (ids : List Nat) :
    (large + 1 - small) * (longMisses + lineMisses large long ids) ≤
      large * (shortMisses + lineMisses small short ids) := by
  induction ids generalizing short long old new missed shortMisses longMisses with
  | nil => exact h.settled
  | cons id ids ih =>
    obtain ⟨old', new', missed', next⟩ := h.join le id
    have rest := ih next
    rw [lineMisses, lineMisses, ← Nat.add_assoc, ← Nat.add_assoc]
    exact rest

end Billed

/-- However a line compares with a longer one, it does not miss less than its share. -/
theorem share_lineMisses_le {small large : Nat} (le : small ≤ large) (pos : 0 < small) (ids : List Nat) :
    (large + 1 - small) * lineMisses large [] ids ≤ large * lineMisses small [] ids := by
  have fresh : Billed small large [] [] ∅ ∅ 0 0 0 :=
    ⟨Nat.zero_le _, .nil, .nil, pos, by omega, Nat.zero_le _, by simp, by simp, by simp⟩
  simpa using fresh.misses_le le ids

end CacheReplay
