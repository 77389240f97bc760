import CacheReplay.Arena
import Mathlib.Algebra.BigOperators.Group.Finset.Basic
import Mathlib.Algebra.Order.BigOperators.Group.Finset
import Mathlib.Data.Finset.Lattice.Fold
import Mathlib.Tactic.Ring

set_option autoImplicit false

namespace CacheReplay.Arena

variable {α β γ : Type}

def weight (a : Arena α) (w : α → Nat) (i : Slot) : Nat := (a.get? i).elim 0 w

def total (a : Arena α) (w : α → Nat) : Nat := ∑ i ∈ Finset.range a.cells.size, a.weight w i

/-- The links of free cells lead from `top` through the cells of the list and end there. -/
def Stacked (cells : Array (Cell α)) : Option Slot → List Slot → Prop
  | top, [] => top = none
  | top, i :: s => top = some i ∧ ∃ below, cells[i]? = some (.free below) ∧ Stacked cells below s

structure Sound (a : Arena α) : Prop where
  stacked : ∃ s, Stacked a.cells a.top s ∧ ∀ i < a.cells.size, a.get? i = none → i ∈ s
  size_eq : a.size = a.total fun _ => 1

theorem weight_of_get? {a : Arena α} {i : Slot} {v : α} (h : a.get? i = some v) (w : α → Nat) :
    a.weight w i = w v := by
  simp [weight, h]

theorem weight_of_none {a : Arena α} {i : Slot} (h : a.get? i = none) (w : α → Nat) :
    a.weight w i = 0 := by
  simp [weight, h]

theorem get?_of_size_le {a : Arena α} {i : Slot} (h : a.cells.size ≤ i) : a.get? i = none := by
  simp [get?, Array.getElem?_eq_none h]

theorem lt_of_get? {a : Arena α} {i : Slot} {v : α} (h : a.get? i = some v) : i < a.cells.size := by
  by_contra hi
  rw [get?_of_size_le (Nat.le_of_not_lt hi)] at h
  cases h

theorem total_eq_sum_of_le {a : Arena α} {n : Nat} (h : a.cells.size ≤ n) (w : α → Nat) :
    a.total w = ∑ i ∈ Finset.range n, a.weight w i := by
  refine Finset.sum_subset ?_ ?_
  · intro i hi
    exact Finset.mem_range.mpr (Nat.lt_of_lt_of_le (Finset.mem_range.mp hi) h)
  · intro i _ hi
    have hge : a.cells.size ≤ i := by simpa using hi
    exact weight_of_none (get?_of_size_le hge) w

theorem total_congr {a b : Arena α} {w v : α → Nat} (h : ∀ i, b.weight v i = a.weight w i) :
    b.total v = a.total w := by
  rw [total_eq_sum_of_le (Nat.le_max_left b.cells.size a.cells.size),
    total_eq_sum_of_le (Nat.le_max_right b.cells.size a.cells.size)]
  exact Finset.sum_congr rfl fun i _ => h i

/-- Two arenas that differ in one cell differ in a total by that cell. -/
theorem total_exchange_weight {a b : Arena α} {w : α → Nat} {i : Nat}
    (h : ∀ j, j ≠ i → b.weight w j = a.weight w j) :
    b.total w + a.weight w i = a.total w + b.weight w i := by
  obtain ⟨n, hn, ha, hb⟩ : ∃ n, i < n ∧ a.cells.size ≤ n ∧ b.cells.size ≤ n :=
    ⟨max (i + 1) (max a.cells.size b.cells.size), by omega, by omega, by omega⟩
  have hi : i ∈ Finset.range n := Finset.mem_range.mpr hn
  have splitA := Finset.add_sum_erase (Finset.range n) (a.weight w) hi
  have splitB := Finset.add_sum_erase (Finset.range n) (b.weight w) hi
  have rest : ∑ j ∈ (Finset.range n).erase i, b.weight w j =
      ∑ j ∈ (Finset.range n).erase i, a.weight w j :=
    Finset.sum_congr rfl fun j hj => h j (Finset.ne_of_mem_erase hj)
  rw [total_eq_sum_of_le hb, total_eq_sum_of_le ha, ← splitA, ← splitB, rest]
  ring

theorem total_exchange {a b : Arena α} {i : Slot} (h : ∀ j, j ≠ i → b.get? j = a.get? j)
    (w : α → Nat) : b.total w + a.weight w i = a.total w + b.weight w i :=
  total_exchange_weight fun j hj => by simp only [weight, h j hj]

theorem sum_eq_total {a : Arena α} {w : α → Nat} {s : List Slot} (nodup : s.Nodup)
    (cover : ∀ i v, a.get? i = some v → w v ≠ 0 → i ∈ s) :
    (s.map (a.weight w)).sum = a.total w := by
  rw [← List.sum_toFinset _ nodup]
  obtain ⟨n, hn, hs⟩ : ∃ n, a.cells.size ≤ n ∧ ∀ i ∈ s, i < n := by
    refine ⟨max a.cells.size (s.toFinset.sup id + 1), Nat.le_max_left .., fun i hi => ?_⟩
    have hle : i ≤ s.toFinset.sup id := Finset.le_sup (f := id) (List.mem_toFinset.mpr hi)
    exact Nat.lt_of_lt_of_le (Nat.lt_succ_of_le hle) (Nat.le_max_right ..)
  rw [total_eq_sum_of_le hn]
  refine Finset.sum_subset ?_ ?_
  · intro i hi
    exact Finset.mem_range.mpr (hs i (List.mem_toFinset.mp hi))
  · intro i _ hi
    cases h : a.get? i with
    | none => exact weight_of_none h w
    | some v =>
      rw [weight_of_get? h]
      by_contra hv
      exact hi (List.mem_toFinset.mpr (cover i v h hv))

theorem sum_le_total (a : Arena α) (w : α → Nat) {s : List Slot} (nodup : s.Nodup) :
    (s.map (a.weight w)).sum ≤ a.total w := by
  rw [← List.sum_toFinset _ nodup, total]
  refine Finset.sum_le_sum_of_ne_zero fun i _ some => ?_
  rw [Finset.mem_range]
  by_contra out
  exact some (weight_of_none (get?_of_size_le (Nat.le_of_not_lt out)) w)

theorem weight_le_total (a : Arena α) (w : α → Nat) (i : Slot) : a.weight w i ≤ a.total w := by
  by_cases hi : i < a.cells.size
  · exact Finset.single_le_sum (fun _ _ => Nat.zero_le _) (Finset.mem_range.mpr hi)
  · rw [weight_of_none (get?_of_size_le (Nat.le_of_not_lt hi))]
    exact Nat.zero_le _

theorem total_eq_zero_iff (a : Arena α) (w : α → Nat) :
    a.total w = 0 ↔ ∀ i v, a.get? i = some v → w v = 0 := by
  constructor
  · intro h i v hv
    have := a.weight_le_total w i
    rw [weight_of_get? hv] at this
    omega
  · intro h
    refine Finset.sum_eq_zero fun i _ => ?_
    cases e : a.get? i with
    | none => exact weight_of_none e w
    | some v => rw [weight_of_get? e, h i v e]

theorem total_le_total {a : Arena α} {v w : α → Nat} (h : ∀ i x, a.get? i = some x → v x ≤ w x) :
    a.total v ≤ a.total w := by
  refine Finset.sum_le_sum fun i _ => ?_
  cases e : a.get? i with
  | none => simp [weight, e]
  | some x => simpa [weight, e] using h i x e

theorem total_add (a : Arena α) (v w : α → Nat) :
    a.total (fun x => v x + w x) = a.total v + a.total w := by
  simp only [total, ← Finset.sum_add_distrib]
  refine Finset.sum_congr rfl fun i _ => ?_
  cases e : a.get? i with
  | none => simp [weight, e]
  | some x => simp [weight, e]

theorem toList_eq (a : Arena α) :
    a.toList = (List.range a.cells.size).filterMap fun i => (a.get? i).map fun v => (i, v) := by
  simp only [toList, get?, ← Array.getElem?_toList, ← Array.length_toList]
  induction a.cells.toList using List.reverseRecOn with
  | nil => rfl
  | append_singleton l c ih =>
    have early : ∀ i ∈ List.range l.length, (((l ++ [c])[i]?.bind Cell.value?).map fun v => (i, v)) =
        (l[i]?.bind Cell.value?).map fun v => (i, v) := by
      intro i hi
      rw [List.getElem?_append_left (List.mem_range.mp hi)]
    rw [List.zipIdx_append, List.filterMap_append, ih, List.length_append, List.length_singleton,
      List.range_succ, List.filterMap_append, List.filterMap_congr early]
    simp [List.filterMap_cons]

theorem toList_fst (a : Arena α) :
    a.toList.map (·.1) = (List.range a.cells.size).filter fun i => a.contains i := by
  rw [toList_eq, List.map_filterMap, ← List.filterMap_eq_filter]
  refine List.filterMap_congr fun i _ => ?_
  cases h : a.get? i <;> simp [contains, Option.guard, h]

theorem nodup_toList_fst (a : Arena α) : (a.toList.map (·.1)).Nodup := by
  rw [toList_fst]
  exact List.nodup_range.filter _

theorem sum_toList (a : Arena α) (w : α → Nat) : (a.toList.map fun e => w e.2).sum = a.total w := by
  rw [← sum_eq_total a.nodup_toList_fst, List.map_map]
  · refine congrArg List.sum (List.map_congr_left fun e he => ?_)
    obtain ⟨i, v⟩ := e
    exact (weight_of_get? ((a.mem_toList_iff i v).mp he) w).symm
  · intro i v h _
    exact List.mem_map.mpr ⟨(i, v), (a.mem_toList_iff i v).mpr h, rfl⟩

namespace Stacked
variable {cells others : Array (Cell α)} {top : Option Slot} {s t : List Slot} {i : Slot}

theorem unique (h : Stacked cells top s) (k : Stacked cells top t) : s = t := by
  induction s generalizing top t with
  | nil =>
    cases t with
    | nil => rfl
    | cons j t => cases h.symm.trans k.1
  | cons i s ih =>
    obtain ⟨rfl, below, free, rest⟩ := h
    cases t with
    | nil => cases k
    | cons j t =>
      obtain ⟨same, other, again, rest'⟩ := k
      cases same
      cases free.symm.trans again
      rw [ih rest rest']

theorem of_mem (h : Stacked cells top s) (hi : i ∈ s) :
    ∃ l r, s = l ++ i :: r ∧ Stacked cells (some i) (i :: r) := by
  induction s generalizing top with
  | nil => cases hi
  | cons j s ih =>
    obtain ⟨rfl, below, free, rest⟩ := h
    rcases List.mem_cons.mp hi with rfl | hi
    · exact ⟨[], s, rfl, rfl, below, free, rest⟩
    · obtain ⟨l, r, rfl, found⟩ := ih rest hi
      exact ⟨j :: l, r, rfl, found⟩

theorem free (h : Stacked cells top s) (hi : i ∈ s) : ∃ below, cells[i]? = some (.free below) := by
  obtain ⟨l, r, -, -, below, free, -⟩ := h.of_mem hi
  exact ⟨below, free⟩

/-- Links that come to an end do not come back to a cell. -/
theorem nodup (h : Stacked cells top s) : s.Nodup := by
  induction s generalizing top with
  | nil => exact List.nodup_nil
  | cons i s ih =>
    obtain ⟨-, below, free, rest⟩ := h
    refine List.nodup_cons.mpr ⟨fun again => ?_, ih rest⟩
    obtain ⟨l, r, split, back⟩ := rest.of_mem again
    have here : Stacked cells (some i) (i :: s) := ⟨rfl, below, free, rest⟩
    have round := congrArg List.length (back.unique here)
    have length := congrArg List.length split
    simp only [List.length_append, List.length_cons] at round length
    omega

theorem congr (h : Stacked cells top s) (same : ∀ i ∈ s, others[i]? = cells[i]?) :
    Stacked others top s := by
  induction s generalizing top with
  | nil => exact h
  | cons i s ih =>
    obtain ⟨rfl, below, free, rest⟩ := h
    refine ⟨rfl, below, ?_, ih rest fun j hj => same j (List.mem_cons_of_mem i hj)⟩
    rw [same i List.mem_cons_self, free]

theorem set (h : Stacked cells top s) (hi : i ∉ s) (c : Cell α) :
    Stacked (cells.setIfInBounds i c) top s := by
  refine h.congr fun j hj => ?_
  rw [Array.getElem?_setIfInBounds_ne]
  rintro rfl
  exact hi hj

end Stacked

theorem get?_of_free {a : Arena α} {i : Slot} {below : Option Slot}
    (h : a.cells[i]? = some (.free below)) : a.get? i = none := by
  simp [get?, h, Cell.value?]

theorem get?_of_stacked {a : Arena α} {top : Option Slot} {s : List Slot} {i : Slot}
    (h : Stacked a.cells top s) (hi : i ∈ s) : i < a.cells.size ∧ a.get? i = none := by
  obtain ⟨below, free⟩ := h.free hi
  exact ⟨(Array.getElem?_eq_some_iff.mp free).1, get?_of_free free⟩

theorem sound_empty : (empty : Arena α).Sound where
  stacked := ⟨[], rfl, fun _ hi => absurd hi (Nat.not_lt_zero _)⟩
  size_eq := by simp [empty, total]

theorem size_insert (a : Arena α) (v : α) : (a.insert v).2.size = a.size + 1 := by
  obtain ⟨cells, top, size⟩ := a
  cases top <;> rfl

theorem stacked_insert {a : Arena α} (v : α) {s : List Slot} (chain : Stacked a.cells a.top s) :
    (a.insert v).1 = s.head?.getD a.cells.size ∧
      Stacked (a.insert v).2.cells (a.insert v).2.top s.tail := by
  obtain ⟨cells, top, size⟩ := a
  cases s with
  | nil =>
    cases chain
    exact ⟨rfl, rfl⟩
  | cons i s =>
    have nodup := List.nodup_cons.mp chain.nodup
    obtain ⟨rfl, below, free, rest⟩ := chain
    refine ⟨rfl, ?_⟩
    have popped : pop cells i = below := by rw [pop, free]
    rw [← popped] at rest
    exact rest.set nodup.1 _

theorem size_cells_insert {a : Arena α} (v : α) {s : List Slot} (chain : Stacked a.cells a.top s) :
    (a.insert v).2.cells.size = if s = [] then a.cells.size + 1 else a.cells.size := by
  obtain ⟨cells, top, size⟩ := a
  cases s with
  | nil =>
    cases chain
    exact Array.size_push ..
  | cons i s =>
    cases chain.1
    exact Array.size_setIfInBounds ..

section insert
variable {a : Arena α} (ha : a.Sound) (v : α)
include ha

theorem get?_insert_fst : a.get? (a.insert v).1 = none := by
  obtain ⟨s, chain, -⟩ := ha.stacked
  obtain ⟨cells, top, size⟩ := a
  cases top with
  | none => exact get?_of_size_le (Nat.le_refl _)
  | some i =>
    cases s with
    | nil => cases chain
    | cons j s =>
      cases chain.1
      exact (get?_of_stacked chain List.mem_cons_self).2

theorem get?_insert (j : Slot) :
    (a.insert v).2.get? j = if j = (a.insert v).1 then some v else a.get? j := by
  obtain ⟨s, chain, -⟩ := ha.stacked
  obtain ⟨cells, top, size⟩ := a
  cases top with
  | none =>
    simp only [insert, get?, Array.getElem?_push]
    by_cases e : j = cells.size
    · simp [e, Cell.value?]
    · simp [e]
  | some i =>
    cases s with
    | nil => cases chain
    | cons k s =>
      cases chain.1
      have hi := (get?_of_stacked chain List.mem_cons_self).1
      simp only [insert, get?, Array.getElem?_setIfInBounds]
      by_cases e : i = j
      · subst e
        simp only [if_true, if_pos hi]
        rfl
      · simp [e, Ne.symm e]

theorem total_insert (w : α → Nat) : (a.insert v).2.total w = a.total w + w v := by
  have h := total_exchange (a := a) (b := (a.insert v).2) (i := (a.insert v).1)
    (fun j hj => by rw [get?_insert ha v, if_neg hj]) w
  rw [weight_of_none (get?_insert_fst ha v),
    weight_of_get? (by rw [get?_insert ha v, if_pos rfl])] at h
  exact h

theorem Sound.insert : (a.insert v).2.Sound := by
  obtain ⟨s, chain, cover⟩ := ha.stacked
  obtain ⟨fst, rest⟩ := stacked_insert v chain
  refine ⟨⟨s.tail, rest, fun j hj free => ?_⟩, ?_⟩
  · rw [get?_insert ha v] at free
    split at free
    · cases free
    · rename_i other
      rw [fst] at other
      have hsize := size_cells_insert v chain
      cases s with
      | nil =>
        rw [List.head?_nil, Option.getD_none] at other
        rw [hsize, if_pos rfl] at hj
        have inside : j < a.cells.size := Nat.lt_of_le_of_ne (Nat.le_of_lt_succ hj) other
        exact absurd (cover j inside free) List.not_mem_nil
      | cons i s =>
        rw [hsize, if_neg (List.cons_ne_nil i s)] at hj
        exact (List.mem_cons.mp (cover j hj free)).resolve_left other
  · rw [total_insert ha v, size_insert, ha.size_eq]

end insert

theorem total_remove {a : Arena α} {i : Slot} {v : α} (h : a.get? i = some v) (w : α → Nat) :
    (a.remove i).2.total w + w v = a.total w := by
  have e := total_exchange (a := a) (b := (a.remove i).2) (i := i)
    (fun j hj => by rw [get?_remove, if_neg (Ne.symm hj)]) w
  rw [weight_of_get? h, weight_of_none (by rw [get?_remove, if_pos rfl])] at e
  exact e

theorem stacked_remove {a : Arena α} {i : Slot} {v : α} {s : List Slot} (h : a.get? i = some v)
    (chain : Stacked a.cells a.top s) :
    Stacked (a.remove i).2.cells (a.remove i).2.top (i :: s) := by
  have out : i ∉ s := by
    intro hi
    rw [(get?_of_stacked chain hi).2] at h
    cases h
  simp only [Arena.remove, h]
  refine ⟨rfl, a.top, ?_, chain.set out _⟩
  rw [Array.getElem?_setIfInBounds_self_of_lt (lt_of_get? h)]

theorem size_cells_remove (a : Arena α) (i : Slot) : (a.remove i).2.cells.size = a.cells.size := by
  unfold remove
  split
  · rfl
  · exact Array.size_setIfInBounds ..

theorem Sound.remove {a : Arena α} (ha : a.Sound) (i : Slot) : (a.remove i).2.Sound := by
  cases h : a.get? i with
  | none =>
    rw [remove_of_get?_eq_none h]
    exact ha
  | some v =>
    have hi := lt_of_get? h
    have hsize : a.size = (a.remove i).2.size + 1 := by
      have : 1 ≤ a.size := by
        rw [ha.size_eq, ← total_remove h]
        omega
      simp only [Arena.remove, h]
      omega
    obtain ⟨s, chain, cover⟩ := ha.stacked
    refine ⟨⟨i :: s, stacked_remove h chain, fun j hj free => ?_⟩, ?_⟩
    · rw [size_cells_remove] at hj
      rw [get?_remove] at free
      by_cases e : i = j
      · exact List.mem_cons.mpr (.inl e.symm)
      · rw [if_neg e] at free
        exact List.mem_cons_of_mem i (cover j hj free)
    · have := total_remove h fun _ => 1
      have := ha.size_eq
      omega

theorem total_modify {a : Arena α} {i : Slot} {v : α} (h : a.get? i = some v) (f : α → α)
    (w : α → Nat) : (a.modify i f).total w + w v = a.total w + w (f v) := by
  have e := total_exchange (a := a) (b := a.modify i f) (i := i)
    (fun j hj => by rw [get?_modify, if_neg (Ne.symm hj)]) w
  rw [weight_of_get? h, weight_of_get? (v := f v) (by rw [get?_modify, if_pos rfl, h]; rfl)] at e
  exact e

/-- Two arenas hold values in the same cells, and `f` cannot tell the values apart. -/
def Same (f : α → β) (a b : Arena α) : Prop := ∀ i, (b.get? i).map f = (a.get? i).map f

namespace Same
variable {f : α → β} {a b c : Arena α}

theorem refl (f : α → β) (a : Arena α) : Same f a a := fun _ => rfl

theorem trans (h : Same f a b) (k : Same f b c) : Same f a c := fun i => (k i).trans (h i)

theorem symm (h : Same f a b) : Same f b a := fun i => (h i).symm

theorem of_comp (h : Same f a b) {g : α → γ} (k : β → γ) (hg : ∀ v, g v = k (f v)) :
    Same g a b := by
  have e : g = k ∘ f := funext hg
  intro i
  rw [e, ← Option.map_map, ← Option.map_map, h i]

theorem get? (h : Same f a b) {i : Slot} {v : α} (hv : a.get? i = some v) :
    ∃ u, b.get? i = some u ∧ f u = f v := by
  have e := h i
  rw [hv] at e
  exact Option.map_eq_some_iff.mp e

theorem get?_eq_none_iff (h : Same f a b) (i : Slot) : b.get? i = none ↔ a.get? i = none := by
  have e := h i
  constructor
  · intro hb
    rw [hb] at e
    exact Option.map_eq_none_iff.mp e.symm
  · intro ha
    rw [ha] at e
    exact Option.map_eq_none_iff.mp e

theorem exists_get?_iff (h : Same f a b) (i : Slot) :
    (∃ v, b.get? i = some v) ↔ ∃ v, a.get? i = some v := by
  rw [← Option.ne_none_iff_exists', ← Option.ne_none_iff_exists', Ne, Ne, h.get?_eq_none_iff]

theorem total (h : Same f a b) {w : α → Nat} (k : β → Nat) (hw : ∀ v, w v = k (f v)) :
    b.total w = a.total w := by
  refine total_congr fun i => ?_
  have e := h.of_comp (g := w) k hw i
  cases hb : b.get? i with
  | none => rw [weight_of_none hb, weight_of_none ((h.get?_eq_none_iff i).mp hb)]
  | some v =>
    obtain ⟨u, hu, -⟩ := h.symm.get? hb
    rw [hb, hu] at e
    rw [weight_of_get? hb, weight_of_get? hu]
    exact Option.some.inj e

end Same

theorem same_modify {f : α → β} (a : Arena α) (i : Slot) {g : α → α}
    (h : ∀ v, a.get? i = some v → f (g v) = f v) : Same f a (a.modify i g) := by
  intro j
  rw [get?_modify]
  split
  · rename_i e
    subst e
    cases hv : a.get? i with
    | none => rfl
    | some v => exact congrArg some (h v hv)
  · rfl

theorem modify_modify (a : Arena α) (i : Slot) (f g : α → α) :
    (a.modify i f).modify i g = a.modify i fun v => g (f v) := by
  have cells : (a.cells.modify i (Cell.map f)).modify i (Cell.map g) =
      a.cells.modify i (Cell.map fun v => g (f v)) := by
    apply Array.ext_getElem?
    intro k
    simp only [Array.getElem?_modify]
    split
    · cases a.cells[k]? with
      | none => rfl
      | some c => cases c <;> rfl
    · rfl
  simp only [modify, cells]

theorem stacked_modify {a : Arena α} {top : Option Slot} {s : List Slot} (chain : Stacked a.cells top s)
    (i : Slot) (f : α → α) : Stacked (a.modify i f).cells top s := by
  refine chain.congr fun j hj => ?_
  obtain ⟨below, free⟩ := chain.free hj
  simp only [Arena.modify, Array.getElem?_modify, free]
  split <;> rfl

theorem Sound.modify {a : Arena α} (ha : a.Sound) (i : Slot) (f : α → α) : (a.modify i f).Sound := by
  have same : Same (fun _ : α => ()) a (a.modify i f) := same_modify a i fun _ _ => rfl
  obtain ⟨s, chain, cover⟩ := ha.stacked
  refine ⟨⟨s, stacked_modify chain i f, fun j hj free => ?_⟩, ?_⟩
  · rw [same.get?_eq_none_iff] at free
    exact cover j (by simpa [Arena.modify] using hj) free
  · rw [size_modify, ha.size_eq]
    exact (same.total (fun _ => 1) fun _ => rfl).symm

/-- A list that names every value once is as long as the arena is large. -/
theorem Sound.length_eq {a : Arena α} (ha : a.Sound) {s : List Slot} (nodup : s.Nodup)
    (mem : ∀ i, i ∈ s ↔ ∃ v, a.get? i = some v) : s.length = a.size := by
  rw [ha.size_eq, ← sum_eq_total nodup fun i v h _ => (mem i).mpr ⟨v, h⟩]
  have ones : ∀ i ∈ s, a.weight (fun _ => 1) i = 1 := by
    intro i hi
    obtain ⟨v, hv⟩ := (mem i).mp hi
    exact weight_of_get? hv _
  rw [List.map_congr_left ones]
  simp

end CacheReplay.Arena
