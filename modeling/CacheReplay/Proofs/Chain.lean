import CacheReplay.Chain
import CacheReplay.Proofs.Arena
import CacheReplay.Proofs.Outcome
import Mathlib.Logic.Function.Basic

set_option autoImplicit false

/-!
# Chains as sequences

A list of handles is threaded when each record names its neighbours in it. A
chain represents a sequence when its ends, its length and the threads agree
with the sequence; each operation on the chain is then the operation of the
same name on the sequence. A family of chains over one arena represents
pairwise disjoint sequences, and changing one of them leaves the others alone.
-/
namespace CacheReplay

/-- The links are one component of a record among others. -/
class LawfulLinked (α : Type) [Linked α] : Prop where
  links_withLinks : ∀ (r : α) (l : Links), Linked.links (Linked.withLinks r l) = l
  withLinks_withLinks : ∀ (r : α) (l m : Links),
    Linked.withLinks (Linked.withLinks r l) m = Linked.withLinks r m
  withLinks_links : ∀ r : α, Linked.withLinks r (Linked.links r) = r

def bare {α : Type} [Linked α] (r : α) : α := Linked.withLinks r .detached

namespace Arena
variable {α : Type} [Linked α]

theorem links?_eq_none_iff (a : Arena α) (i : Slot) : a.links? i = none ↔ a.get? i = none := by
  simp [links?]

/-- What an operation on a chain does to the arena: it changes links of touched records only. -/
structure Relinked (touched : List Slot) (a b : Arena α) : Prop where
  same : Same bare a b
  links_eq : ∀ j, j ∉ touched → b.links? j = a.links? j
  cells_size : b.cells.size = a.cells.size
  size_eq : b.size = a.size
  sound : a.Sound → b.Sound

namespace Relinked
variable {touched : List Slot} {a b c : Arena α}

theorem refl (touched : List Slot) (a : Arena α) : Relinked touched a a :=
  ⟨.refl _ _, fun _ _ => rfl, rfl, rfl, id⟩

theorem trans (h : Relinked touched a b) (k : Relinked touched b c) : Relinked touched a c :=
  ⟨h.same.trans k.same, fun j hj => (k.links_eq j hj).trans (h.links_eq j hj),
    k.cells_size.trans h.cells_size, k.size_eq.trans h.size_eq, fun s => k.sound (h.sound s)⟩

theorem widen {more : List Slot} (h : Relinked touched a b) (sub : ∀ i ∈ touched, i ∈ more) :
    Relinked more a b :=
  ⟨h.same, fun j hj => h.links_eq j fun ht => hj (sub j ht), h.cells_size, h.size_eq, h.sound⟩

end Relinked

variable [LawfulLinked α]

theorem links?_relink (a : Arena α) (i j : Slot) (f : Links → Links) :
    (a.relink i f).links? j = if i = j then (a.links? j).map f else a.links? j := by
  simp only [relink, links?, get?_modify]
  split
  · cases a.get? j with
    | none => rfl
    | some r => exact congrArg some (LawfulLinked.links_withLinks r _)
  · rfl

namespace Relinked
variable {touched : List Slot} {a b : Arena α}

theorem relink (a : Arena α) {i : Slot} (hi : i ∈ touched) (f : Links → Links) :
    Relinked touched a (a.relink i f) := by
  refine ⟨same_modify a i fun r _ => LawfulLinked.withLinks_withLinks r _ _, ?_, ?_, rfl,
    fun s => s.modify i _⟩
  · intro j hj
    rw [links?_relink, if_neg]
    rintro rfl
    exact hj hi
  · simp [Arena.relink, Arena.modify]

theorem setNext (a : Arena α) {i : Option Slot} (hi : ∀ j, i = some j → j ∈ touched)
    (n : Option Slot) : Relinked touched a (a.setNext i n) := by
  cases i with
  | none => exact .refl _ _
  | some i => exact relink a (hi i rfl) fun l => { l with next := n }

theorem setPrev (a : Arena α) {i : Option Slot} (hi : ∀ j, i = some j → j ∈ touched)
    (p : Option Slot) : Relinked touched a (a.setPrev i p) := by
  cases i with
  | none => exact .refl _ _
  | some i => exact relink a (hi i rfl) fun l => { l with prev := p }

end Relinked
end Arena

namespace Chain
variable {α : Type} [Linked α]

/-- Each record of `s` names its neighbours, `before` in front of the first and `after` behind the last. -/
def Threads (a : Arena α) : Option Slot → List Slot → Option Slot → Prop
  | _, [], _ => True
  | before, i :: rest, after =>
    a.links? i = some ⟨before, rest.head?.or after⟩ ∧ Threads a (some i) rest after

theorem threads_append (a : Arena α) (before after : Option Slot) (l r : List Slot) :
    Threads a before (l ++ r) after ↔
      Threads a before l (r.head?.or after) ∧ Threads a (l.getLast?.or before) r after := by
  induction l generalizing before with
  | nil => simp [Threads]
  | cons i l ih =>
    have hlast : (i :: l).getLast?.or before = l.getLast?.or (some i) := by
      cases l with
      | nil => rfl
      | cons j l => simp [List.getLast?_cons]
    have hhead : (l ++ r).head?.or after = l.head?.or (r.head?.or after) := by
      cases l <;> simp
    rw [List.cons_append, Threads, Threads, ih, hhead, hlast, and_assoc]

theorem Threads.congr {a b : Arena α} {before after : Option Slot} {s : List Slot}
    (h : Threads a before s after) (e : ∀ i ∈ s, b.links? i = a.links? i) :
    Threads b before s after := by
  induction s generalizing before with
  | nil => trivial
  | cons i s ih =>
    refine ⟨(e i List.mem_cons_self).trans h.1, ih h.2 fun j hj => ?_⟩
    exact e j (List.mem_cons_of_mem i hj)

theorem Threads.links? {a : Arena α} {before after : Option Slot} {s : List Slot}
    (h : Threads a before s after) {i : Slot} (hi : i ∈ s) : (a.links? i).isSome := by
  induction s generalizing before with
  | nil => cases hi
  | cons j s ih =>
    rcases List.mem_cons.mp hi with rfl | hi
    · simp [h.1]
    · exact ih h.2 hi

theorem threads_iff (a : Arena α) (before after : Option Slot) (s : List Slot) :
    Threads a before s after ↔ ∀ k (h : k < s.length),
      a.links? s[k] = some ⟨if k = 0 then before else s[k - 1]?, (s[k + 1]?).or after⟩ := by
  induction s generalizing before with
  | nil => simp [Threads]
  | cons i s ih =>
    rw [Threads, ih]
    constructor
    · rintro ⟨hi, hs⟩ k hk
      cases k with
      | zero => simpa [List.head?_eq_getElem?] using hi
      | succ k =>
        have := hs k (by simpa using hk)
        rw [List.getElem_cons_succ, this]
        cases k <;> simp
    · intro h
      have first := h 0 (by simp)
      rw [List.getElem_cons_zero] at first
      refine ⟨by simpa [List.head?_eq_getElem?] using first, fun k hk => ?_⟩
      have := h (k + 1) (by simpa using hk)
      rw [List.getElem_cons_succ] at this
      rw [this]
      cases k <;> simp

theorem represents_iff (c : Chain) (a : Arena α) (s : List Slot) :
    c.Represents a s ↔ s.Nodup ∧ c.front = s.head? ∧ c.back = s.getLast? ∧ c.length = s.length ∧
      Threads a none s none := by
  have e : Threads a none s none ↔ ∀ k (h : k < s.length),
      a.links? s[k] = some ⟨if k = 0 then none else s[k - 1]?, s[k + 1]?⟩ := by
    rw [threads_iff]
    simp
  rw [e]
  exact ⟨fun h => ⟨h.nodup, h.front_eq, h.back_eq, h.length_eq, h.links_eq⟩,
    fun ⟨h₁, h₂, h₃, h₄, h₅⟩ => ⟨h₁, h₂, h₃, h₄, h₅⟩⟩

namespace Represents
variable {c : Chain} {a b : Arena α} {s : List Slot}

theorem threads (h : c.Represents a s) : Threads a none s none :=
  ((represents_iff c a s).mp h).2.2.2.2

theorem links? (h : c.Represents a s) {i : Slot} (hi : i ∈ s) : (a.links? i).isSome :=
  h.threads.links? hi

theorem get? (h : c.Represents a s) {i : Slot} (hi : i ∈ s) : ∃ r, a.get? i = some r := by
  cases e : a.get? i with
  | none => simpa [(a.links?_eq_none_iff i).mpr e] using h.links? hi
  | some r => exact ⟨r, rfl⟩

theorem congr (h : c.Represents a s) (e : ∀ i ∈ s, b.links? i = a.links? i) :
    c.Represents b s := by
  rw [represents_iff] at h ⊢
  exact ⟨h.1, h.2.1, h.2.2.1, h.2.2.2.1, h.2.2.2.2.congr e⟩

theorem length_le (h : c.Represents a s) : s.length ≤ a.cells.size := by
  have sub : s ⊆ List.range a.cells.size := by
    intro i hi
    obtain ⟨r, hr⟩ := h.get? hi
    exact List.mem_range.mpr (Arena.lt_of_get? hr)
  simpa using (h.nodup.subperm sub).length_le

theorem links?_at (h : c.Represents a s) {l r : List Slot} {i : Slot} (hs : s = l ++ i :: r) :
    a.links? i = some ⟨l.getLast?, r.head?⟩ := by
  have t := h.threads
  rw [hs, threads_append] at t
  simpa using t.2.1

theorem nextOf (h : c.Represents a s) {l r : List Slot} {i : Slot} (hs : s = l ++ i :: r) :
    a.nextOf i = r.head? := by
  simp [Arena.nextOf, h.links?_at hs]

theorem prevOf (h : c.Represents a s) {l r : List Slot} {i : Slot} (hs : s = l ++ i :: r) :
    a.prevOf i = l.getLast? := by
  simp [Arena.prevOf, h.links?_at hs]

theorem prevOf_mem (h : c.Represents a s) {i j : Slot} (hi : i ∈ s) (e : a.prevOf i = some j) :
    j ∈ s ∧ j ≠ i := by
  obtain ⟨l, r, rfl⟩ := List.append_of_mem hi
  rw [h.prevOf rfl] at e
  have hj := List.mem_of_getLast? e
  exact ⟨by simp [hj], (List.nodup_append.mp h.nodup).2.2 j hj i (by simp)⟩

theorem nextOf_mem (h : c.Represents a s) {i j : Slot} (hi : i ∈ s) (e : a.nextOf i = some j) :
    j ∈ s ∧ j ≠ i := by
  obtain ⟨l, r, rfl⟩ := List.append_of_mem hi
  rw [h.nextOf rfl] at e
  have hj := List.mem_of_head? e
  refine ⟨by simp [hj], fun same => ?_⟩
  subst same
  exact (List.nodup_cons.mp (List.nodup_append.mp h.nodup).2.1).1 hj

end Represents

theorem walk_eq {a : Arena α} {before : Option Slot} {s : List Slot}
    (h : Threads a before s none) {steps : Nat} (hs : s.length ≤ steps) :
    a.walk true steps s.head? = s := by
  induction s generalizing before steps with
  | nil => cases steps <;> rfl
  | cons i s ih =>
    obtain ⟨steps, rfl⟩ : ∃ k, steps = k + 1 := ⟨steps - 1, by simp at hs; omega⟩
    simp only [List.head?_cons, Arena.walk, h.1, Option.or_none, if_true]
    rw [ih h.2 (by simpa using hs)]

theorem Represents.toList_eq {c : Chain} {a : Arena α} {s : List Slot} (h : c.Represents a s) :
    c.toList a = s := by
  rw [toList, h.front_eq]
  exact walk_eq h.threads h.length_le

def detached (c : Chain) (a : Arena α) (l r : List Slot) (i : Slot) : Chain × Arena α :=
  (⟨if l.getLast?.isSome then c.front else r.head?, if r.head?.isSome then c.back else l.getLast?,
    c.length - 1⟩,
    ((a.setNext l.getLast? r.head?).setPrev r.head? l.getLast?).relink i fun _ => .detached)

theorem Represents.unlink_eq {c : Chain} {a : Arena α} {l r : List Slot} {i : Slot}
    (h : c.Represents a (l ++ i :: r)) : c.unlink a i = .ok (detached c a l r i) := by
  have hlen : 1 ≤ c.length := by
    rw [h.length_eq]
    simp
    omega
  rw [Chain.unlink, h.links?_at rfl]
  dsimp only
  rw [subWord_of_le hlen]
  rfl

variable [LawfulLinked α]

theorem Threads.setNext {a : Arena α} {before after : Option Slot} {s : List Slot}
    (h : Threads a before s after) (nodup : s.Nodup) (n : Option Slot) :
    Threads (a.setNext s.getLast? n) before s n := by
  cases s using List.reverseRecOn with
  | nil => trivial
  | append_singleton l i _ =>
    have hi : i ∉ l := fun hmem => (List.nodup_append.mp nodup).2.2 i hmem i (by simp) rfl
    rw [threads_append] at h ⊢
    simp only [List.getLast?_append, List.getLast?_singleton, Option.some_or, Arena.setNext] at h ⊢
    refine ⟨h.1.congr fun j hj => ?_, ?_, trivial⟩
    · rw [Arena.links?_relink, if_neg]
      rintro rfl
      exact hi hj
    · rw [Arena.links?_relink, if_pos rfl, h.2.1]
      simp

theorem Threads.setPrev {a : Arena α} {before after : Option Slot} {s : List Slot}
    (h : Threads a before s after) (nodup : s.Nodup) (p : Option Slot) :
    Threads (a.setPrev s.head? p) p s after := by
  cases s with
  | nil => trivial
  | cons i s =>
    simp only [List.head?_cons, Arena.setPrev]
    refine ⟨?_, h.2.congr fun j hj => ?_⟩
    · rw [Arena.links?_relink, if_pos rfl, h.1]
      rfl
    · rw [Arena.links?_relink, if_neg]
      rintro rfl
      exact (List.nodup_cons.mp nodup).1 hj

theorem links?_setNext_of_not_mem {a : Arena α} {i : Option Slot} {j : Slot}
    (h : ∀ k, i = some k → k ≠ j) (n : Option Slot) : (a.setNext i n).links? j = a.links? j := by
  cases i with
  | none => rfl
  | some i => rw [Arena.setNext, Arena.links?_relink, if_neg (h i rfl)]

theorem links?_setPrev_of_not_mem {a : Arena α} {i : Option Slot} {j : Slot}
    (h : ∀ k, i = some k → k ≠ j) (p : Option Slot) : (a.setPrev i p).links? j = a.links? j := by
  cases i with
  | none => rfl
  | some i => rw [Arena.setPrev, Arena.links?_relink, if_neg (h i rfl)]

section operations
variable {c : Chain} {a : Arena α} {s : List Slot} {i : Slot}

theorem relinked_pushFront (h : c.Represents a s) :
    Arena.Relinked (i :: s) a (c.pushFront a i).2 := by
  unfold pushFront
  split
  · refine .trans (.relink a (by simp) _) (.setPrev _ (fun j hj => ?_) _)
    exact List.mem_cons_of_mem i (List.mem_of_head? (h.front_eq ▸ hj))
  · exact .refl _ _

theorem Represents.pushFront (h : c.Represents a s) (hi : i ∉ s) (present : a.contains i = true) :
    (c.pushFront a i).1.Represents (c.pushFront a i).2 (i :: s) := by
  have t := h.threads
  rw [represents_iff]
  simp only [Chain.pushFront, present, if_true, h.front_eq]
  refine ⟨List.nodup_cons.mpr ⟨hi, h.nodup⟩, rfl, ?_, by simp [h.length_eq], ?_, ?_⟩
  · rw [h.back_eq]
    cases s <;> simp [List.getLast?_cons_cons]
  · have hlinks : a.links? i ≠ none := by
      rw [Ne, Arena.links?_eq_none_iff]
      simpa [Arena.contains, Option.isSome_iff_ne_none] using present
    obtain ⟨l, hl⟩ := Option.ne_none_iff_exists'.mp hlinks
    rw [links?_setPrev_of_not_mem, Arena.links?_relink, if_pos rfl, hl]
    · simp
    · rintro k hk rfl
      exact hi (List.mem_of_head? hk)
  · refine (show Threads _ none s none from ?_).setPrev h.nodup _
    refine t.congr fun j hj => ?_
    rw [Arena.links?_relink, if_neg]
    rintro rfl
    exact hi hj

theorem relinked_pushBack (h : c.Represents a s) :
    Arena.Relinked (i :: s) a (c.pushBack a i).2 := by
  unfold pushBack
  split
  · refine .trans (.relink a (by simp) _) (.setNext _ (fun j hj => ?_) _)
    exact List.mem_cons_of_mem i (List.mem_of_getLast? (h.back_eq ▸ hj))
  · exact .refl _ _

theorem Represents.pushBack (h : c.Represents a s) (hi : i ∉ s) (present : a.contains i = true) :
    (c.pushBack a i).1.Represents (c.pushBack a i).2 (s ++ [i]) := by
  have t := h.threads
  rw [represents_iff]
  simp only [Chain.pushBack, present, if_true, h.back_eq]
  refine ⟨?_, ?_, by simp, by simp [h.length_eq], ?_⟩
  · exact List.nodup_append.mpr ⟨h.nodup, by simp, by
      intro j hj k hk e
      rw [List.mem_singleton] at hk
      exact hi (hk ▸ e ▸ hj)⟩
  · rw [h.front_eq]
    cases s <;> simp
  · rw [threads_append]
    refine ⟨?_, ?_, trivial⟩
    · refine (show Threads _ none s none from ?_).setNext h.nodup _
      refine t.congr fun j hj => ?_
      rw [Arena.links?_relink, if_neg]
      rintro rfl
      exact hi hj
    · have hlinks : a.links? i ≠ none := by
        rw [Ne, Arena.links?_eq_none_iff]
        simpa [Arena.contains, Option.isSome_iff_ne_none] using present
      obtain ⟨l, hl⟩ := Option.ne_none_iff_exists'.mp hlinks
      rw [links?_setNext_of_not_mem, Arena.links?_relink, if_pos rfl, hl]
      · simp
      · rintro k hk rfl
        exact hi (List.mem_of_getLast? hk)

theorem relinked_insertBefore {l r : List Slot} {anchor : Slot}
    (h : c.Represents a (l ++ anchor :: r)) :
    Arena.Relinked (i :: (l ++ anchor :: r)) a (c.insertBefore a anchor i).2 := by
  simp only [insertBefore, h.links?_at rfl]
  refine .trans (.trans (.relink a (by simp) _) (.setPrev _ (fun j hj => ?_) _))
    (.setNext _ (fun j hj => ?_) _)
  · cases hj
    simp
  · have := List.mem_of_getLast? hj
    simp [this]

theorem Represents.insertBefore {l r : List Slot} {anchor : Slot}
    (h : c.Represents a (l ++ anchor :: r)) (hi : i ∉ l ++ anchor :: r)
    (present : a.contains i = true) :
    (c.insertBefore a anchor i).1.Represents (c.insertBefore a anchor i).2
      (l ++ i :: anchor :: r) := by
  have t := h.threads
  have nodup := h.nodup
  rw [represents_iff]
  simp only [Chain.insertBefore, h.links?_at rfl]
  have hl : i ∉ l := fun hmem => hi (by simp [hmem])
  have ha : i ≠ anchor := fun e => hi (by simp [e])
  have hr : i ∉ r := fun hmem => hi (by simp [hmem])
  have apart : ∀ j ∈ l, j ∉ anchor :: r := fun j hj hk =>
    (List.nodup_append.mp nodup).2.2 j hj j hk rfl
  refine ⟨?_, ?_, ?_, ?_, ?_⟩
  · rw [List.nodup_middle]
    exact List.nodup_cons.mpr ⟨by simp [hl, ha, hr], nodup⟩
  · rw [h.front_eq]
    cases l <;> simp
  · rw [h.back_eq]
    simp [List.getLast?_append, List.getLast?_cons]
  · simp [h.length_eq]
    omega
  · rw [threads_append] at t ⊢
    refine ⟨?_, ?_, ?_⟩
    · refine (show Threads _ none l (some anchor) from ?_).setNext (List.nodup_append.mp nodup).1 _
      refine t.1.congr fun j hj => ?_
      rw [links?_setPrev_of_not_mem, Arena.links?_relink, if_neg]
      · rintro rfl
        exact hl hj
      · rintro k hk rfl
        cases hk
        exact apart anchor hj List.mem_cons_self
    · have hlinks : a.links? i ≠ none := by
        rw [Ne, Arena.links?_eq_none_iff]
        simpa [Arena.contains, Option.isSome_iff_ne_none] using present
      obtain ⟨m, hm⟩ := Option.ne_none_iff_exists'.mp hlinks
      rw [links?_setNext_of_not_mem, links?_setPrev_of_not_mem, Arena.links?_relink, if_pos rfl, hm]
      · simp
      · rintro k hk rfl
        cases hk
        exact ha rfl
      · rintro k hk rfl
        exact hl (List.mem_of_getLast? hk)
    · have placed : Threads ((a.relink i fun _ => ⟨l.getLast?, some anchor⟩).setPrev
          (anchor :: r).head? (some i)) (some i) (anchor :: r) none := by
        refine (show Threads _ (l.getLast?.or none) (anchor :: r) none from ?_).setPrev
          (List.nodup_append.mp nodup).2.1 _
        refine t.2.congr fun j hj => ?_
        rw [Arena.links?_relink, if_neg]
        rintro rfl
        exact hi (List.mem_append_right l hj)
      refine placed.congr fun j hj => ?_
      refine links?_setNext_of_not_mem ?_ _
      rintro k hk rfl
      exact apart k (List.mem_of_getLast? hk) hj

theorem relinked_detached {l r : List Slot} (c : Chain) (a : Arena α) (i : Slot) :
    Arena.Relinked (l ++ i :: r) a (detached c a l r i).2 := by
  have mem : i ∈ l ++ i :: r := by simp
  refine .trans (.trans (.setNext _ (fun j hj => ?_) _) (.setPrev _ (fun j hj => ?_) _))
    (.relink _ mem fun _ => .detached)
  · exact List.mem_append_left _ (List.mem_of_getLast? hj)
  · exact List.mem_append_right _ (List.mem_cons_of_mem i (List.mem_of_head? hj))

theorem Represents.detached {l r : List Slot} (h : c.Represents a (l ++ i :: r)) :
    (detached c a l r i).1.Represents (detached c a l r i).2 (l ++ r) := by
  have t := h.threads
  have nodup := h.nodup
  rw [threads_append] at t
  have hl : i ∉ l := fun hmem => (List.nodup_append.mp nodup).2.2 i hmem i (by simp) rfl
  have hr : i ∉ r := (List.nodup_cons.mp (List.nodup_append.mp nodup).2.1).1
  have apart : ∀ j ∈ l, j ∉ r := fun j hj hk =>
    (List.nodup_append.mp nodup).2.2 j hj j (List.mem_cons_of_mem i hk) rfl
  rw [represents_iff]
  simp only [Chain.detached]
  refine ⟨?_, ?_, ?_, ?_, ?_⟩
  · rw [List.nodup_middle] at nodup
    exact (List.nodup_cons.mp nodup).2
  · rw [h.front_eq]
    cases l <;> simp
  · rw [h.back_eq]
    cases r using List.reverseRecOn with
    | nil => simp
    | append_singleton r j _ =>
      simp [List.getLast?_append, List.getLast?_cons]
  · simp [h.length_eq]
  · have gone : ∀ (b : Arena α) (j : Slot), j ≠ i →
        (b.relink i fun _ => .detached).links? j = b.links? j := fun b j hj => by
      rw [Arena.links?_relink, if_neg (Ne.symm hj)]
    rw [threads_append]
    constructor
    · have front : Threads (a.setNext l.getLast? r.head?) none l (r.head?.or none) := by
        simpa using t.1.setNext (List.nodup_append.mp nodup).1 r.head?
      refine front.congr fun j hj => ?_
      rw [gone _ _ fun e => hl (e ▸ hj)]
      refine links?_setPrev_of_not_mem ?_ _
      rintro k hk rfl
      exact apart k hj (List.mem_of_head? hk)
    · have nodupR := (List.nodup_cons.mp (List.nodup_append.mp nodup).2.1).2
      have back : Threads ((a.setNext l.getLast? r.head?).setPrev r.head? l.getLast?)
          (l.getLast?.or none) r none := by
        rw [Option.or_none]
        refine (show Threads _ (some i) r none from ?_).setPrev nodupR _
        refine t.2.2.congr fun j hj => ?_
        refine links?_setNext_of_not_mem ?_ _
        rintro k hk rfl
        exact apart k (List.mem_of_getLast? hk) hj
      exact back.congr fun j hj => gone _ _ fun e => hr (e ▸ hj)

theorem erase_append_cons {β : Type} [DecidableEq β] {l r : List β} {i : β} (nodup : (l ++ i :: r).Nodup) :
    (l ++ i :: r).erase i = l ++ r := by
  have out : i ∉ l := fun mem => (List.nodup_append.mp nodup).2.2 i mem i List.mem_cons_self rfl
  rw [List.erase_append_right _ out, List.erase_cons_head]

theorem Represents.unlink (h : c.Represents a s) (hi : i ∈ s) :
    ∃ d b, c.unlink a i = .ok (d, b) ∧ d.Represents b (s.erase i) ∧ Arena.Relinked s a b := by
  obtain ⟨l, r, rfl⟩ := List.append_of_mem hi
  refine ⟨_, _, h.unlink_eq, ?_, relinked_detached c a i⟩
  rw [erase_append_cons h.nodup]
  exact h.detached

theorem Represents.moveToFront (h : c.Represents a s) (hi : i ∈ s) :
    ∃ d b, c.moveToFront a i = .ok (d, b) ∧ d.Represents b (i :: s.erase i) ∧
      Arena.Relinked s a b := by
  unfold Chain.moveToFront
  by_cases first : c.front = some i
  · rw [if_pos first]
    refine ⟨c, a, rfl, ?_, .refl _ _⟩
    rw [h.front_eq] at first
    cases s with
    | nil => cases first
    | cons j s =>
      cases first
      rwa [List.erase_cons_head]
  · rw [if_neg first]
    obtain ⟨d, b, e, rep, rel⟩ := h.unlink hi
    have present : b.contains i = true := by
      obtain ⟨r, hr⟩ := h.get? hi
      obtain ⟨u, hu, -⟩ := rel.same.get? hr
      simp [Arena.contains, hu]
    refine ⟨_, _, by rw [e]; rfl, rep.pushFront (h.nodup.not_mem_erase) present, rel.trans ?_⟩
    refine (relinked_pushFront rep).widen fun j hj => ?_
    rcases List.mem_cons.mp hj with rfl | hj
    · exact hi
    · exact List.mem_of_mem_erase hj

end operations

/-- Chains over one arena that represent pairwise disjoint sequences. -/
structure Family {ι : Type} (chains : ι → Chain) (a : Arena α) (seqs : ι → List Slot) : Prop where
  represents : ∀ k, (chains k).Represents a (seqs k)
  disjoint : ∀ k l i, i ∈ seqs k → i ∈ seqs l → k = l

namespace Family
variable {ι : Type} {chains : ι → Chain} {a b : Arena α} {seqs : ι → List Slot}

omit [LawfulLinked α] in
theorem congr (h : Family chains a seqs) (e : ∀ k, ∀ i ∈ seqs k, b.links? i = a.links? i) :
    Family chains b seqs :=
  ⟨fun k => (h.represents k).congr (e k), h.disjoint⟩

omit [LawfulLinked α] in
/-- One chain of a family changes; what the change touches is in no other chain. -/
theorem replace [DecidableEq ι] (h : Family chains a seqs) {touched : List Slot} {k : ι} {c : Chain}
    {s : List Slot} (rel : Arena.Relinked touched a b) (rep : c.Represents b s)
    (own : ∀ i ∈ touched, ∀ l, l ≠ k → i ∉ seqs l) (sub : ∀ i ∈ s, i ∈ touched) :
    Family (Function.update chains k c) b (Function.update seqs k s) := by
  constructor
  · intro l
    by_cases e : l = k
    · subst e
      simpa using rep
    · rw [Function.update_of_ne e, Function.update_of_ne e]
      refine (h.represents l).congr fun i hi => rel.links_eq i fun ht => ?_
      exact own i ht l e hi
  · intro l m i hl hm
    by_cases el : l = k
    · by_cases em : m = k
      · rw [el, em]
      · rw [el, Function.update_self] at hl
        rw [Function.update_of_ne em] at hm
        exact absurd hm (own i (sub i hl) m em)
    · rw [Function.update_of_ne el] at hl
      by_cases em : m = k
      · rw [em, Function.update_self] at hm
        exact absurd hl (own i (sub i hm) l el)
      · rw [Function.update_of_ne em] at hm
        exact h.disjoint l m i hl hm

omit [LawfulLinked α] in
theorem giveUp [DecidableEq ι] (h : Family chains a seqs) (k : ι)
    (e : ∀ l, l ≠ k → ∀ i ∈ seqs l, b.links? i = a.links? i) :
    Family (Function.update chains k .empty) b (Function.update seqs k []) := by
  have left : ∀ l i, i ∈ Function.update seqs k [] l → l ≠ k ∧ i ∈ seqs l := by
    intro l i hi
    by_cases at_k : l = k
    · rw [at_k, Function.update_self] at hi
      cases hi
    · rw [Function.update_of_ne at_k] at hi
      exact ⟨at_k, hi⟩
  constructor
  · intro l
    by_cases at_k : l = k
    · rw [at_k, Function.update_self, Function.update_self]
      exact represents_empty _
    · rw [Function.update_of_ne at_k, Function.update_of_ne at_k]
      exact (h.represents l).congr (e l at_k)
  · intro l m i hl hm
    exact h.disjoint l m i (left l i hl).2 (left m i hm).2

omit [LawfulLinked α] in
theorem own (h : Family chains a seqs) {k : ι} {i : Slot} (hi : i ∈ seqs k) (l : ι) (hl : l ≠ k) :
    i ∉ seqs l := fun hmem => hl (h.disjoint l k i hmem hi)

variable [DecidableEq ι] {k : ι} {i : Slot}

theorem pushFront (h : Family chains a seqs) (hi : ∀ l, i ∉ seqs l) (present : a.contains i = true) :
    Family (Function.update chains k ((chains k).pushFront a i).1) ((chains k).pushFront a i).2
      (Function.update seqs k (i :: seqs k)) := by
  refine h.replace (relinked_pushFront (h.represents k))
    ((h.represents k).pushFront (hi k) present) ?_ fun j hj => hj
  intro j hj l hl
  rcases List.mem_cons.mp hj with rfl | hj
  · exact hi l
  · exact h.own hj l hl

theorem pushBack (h : Family chains a seqs) (hi : ∀ l, i ∉ seqs l) (present : a.contains i = true) :
    Family (Function.update chains k ((chains k).pushBack a i).1) ((chains k).pushBack a i).2
      (Function.update seqs k (seqs k ++ [i])) := by
  refine h.replace (relinked_pushBack (h.represents k))
    ((h.represents k).pushBack (hi k) present) ?_ fun j hj => ?_
  · intro j hj l hl
    rcases List.mem_cons.mp hj with rfl | hj
    · exact hi l
    · exact h.own hj l hl
  · rcases List.mem_append.mp hj with hj | hj
    · exact List.mem_cons_of_mem i hj
    · exact List.mem_cons.mpr (.inl (List.mem_singleton.mp hj))

theorem insertBefore (h : Family chains a seqs) {l r : List Slot} {anchor : Slot}
    (hs : seqs k = l ++ anchor :: r) (hi : ∀ l, i ∉ seqs l) (present : a.contains i = true) :
    Family (Function.update chains k ((chains k).insertBefore a anchor i).1)
      ((chains k).insertBefore a anchor i).2
      (Function.update seqs k (l ++ i :: anchor :: r)) := by
  have rep := hs ▸ h.represents k
  refine h.replace (relinked_insertBefore rep)
    (rep.insertBefore (hs ▸ hi k) present) ?_ fun j hj => ?_
  · intro j hj m hm
    rcases List.mem_cons.mp hj with rfl | hj
    · exact hi m
    · exact h.own (hs ▸ hj) m hm
  · simp only [List.mem_append, List.mem_cons] at hj ⊢
    tauto

theorem unlink (h : Family chains a seqs) (hi : i ∈ seqs k) :
    ∃ c b, (chains k).unlink a i = .ok (c, b) ∧ Arena.Relinked (seqs k) a b ∧
      Family (Function.update chains k c) b (Function.update seqs k ((seqs k).erase i)) := by
  obtain ⟨c, b, e, rep, rel⟩ := (h.represents k).unlink hi
  refine ⟨c, b, e, rel, h.replace rel rep ?_ fun j hj => List.mem_of_mem_erase hj⟩
  exact fun j hj l hl => h.own hj l hl

theorem moveToFront (h : Family chains a seqs) (hi : i ∈ seqs k) :
    ∃ c b, (chains k).moveToFront a i = .ok (c, b) ∧ Arena.Relinked (seqs k) a b ∧
      Family (Function.update chains k c) b (Function.update seqs k (i :: (seqs k).erase i)) := by
  obtain ⟨c, b, e, rep, rel⟩ := (h.represents k).moveToFront hi
  refine ⟨c, b, e, rel, h.replace rel rep (fun j hj l hl => h.own hj l hl) fun j hj => ?_⟩
  rcases List.mem_cons.mp hj with rfl | hj
  · exact hi
  · exact List.mem_of_mem_erase hj

end Family
end Chain

/-! Relinking never changes more of a record than its links, whatever the chain looks like. -/

namespace Chain
variable {α : Type} [Linked α] [LawfulLinked α] {t : Tolerance} (c : Chain) (a : Arena α) (i : Slot)

theorem same_pushFront : a.Same bare (c.pushFront a i).2 := by
  unfold pushFront
  split
  · have linked := Arena.Relinked.relink a (List.mem_singleton_self i) fun _ => ⟨none, c.front⟩
    have back : Arena.Relinked c.front.toList _ _ :=
      .setPrev (a.relink i fun _ => ⟨none, c.front⟩) (fun j hj => Option.mem_toList.mpr hj) (some i)
    exact linked.same.trans back.same
  · exact .refl _ _

theorem same_pushBack : a.Same bare (c.pushBack a i).2 := by
  unfold pushBack
  split
  · have linked := Arena.Relinked.relink a (List.mem_singleton_self i) fun _ => ⟨c.back, none⟩
    have front : Arena.Relinked c.back.toList _ _ :=
      .setNext (a.relink i fun _ => ⟨c.back, none⟩) (fun j hj => Option.mem_toList.mpr hj) (some i)
    exact linked.same.trans front.same
  · exact .refl _ _

theorem same_insertBefore (anchor : Slot) : a.Same bare (c.insertBefore a anchor i).2 := by
  unfold insertBefore
  split
  · exact .refl _ _
  · rename_i l _
    have linked := Arena.Relinked.relink a (List.mem_singleton_self i) fun _ => ⟨l.prev, some anchor⟩
    have back : Arena.Relinked [anchor] _ _ :=
      .setPrev (i := some anchor) (a.relink i fun _ => ⟨l.prev, some anchor⟩) (by simp) (some i)
    have front : Arena.Relinked l.prev.toList _ _ :=
      .setNext ((a.relink i fun _ => ⟨l.prev, some anchor⟩).setPrev (some anchor) (some i))
        (fun j hj => Option.mem_toList.mpr hj) (some i)
    exact (linked.same.trans back.same).trans front.same

theorem settles_unlink_same : Settles t (c.unlink a i) fun p => a.Same bare p.2 := by
  unfold unlink
  split
  · exact settles_pure (.refl _ _)
  · rename_i prev next _
    have front : Arena.Relinked prev.toList _ _ :=
      .setNext a (fun j hj => Option.mem_toList.mpr hj) next
    have back : Arena.Relinked next.toList _ _ :=
      .setPrev (a.setNext prev next) (fun j hj => Option.mem_toList.mpr hj) prev
    have alone := Arena.Relinked.relink ((a.setNext prev next).setPrev next prev)
      (List.mem_singleton_self i) fun _ => .detached
    refine settles_bind (settles_subWord _ _) fun length _ => settles_pure ?_
    exact (front.same.trans back.same).trans alone.same

theorem settles_moveToFront_same : Settles t (c.moveToFront a i) fun p => a.Same bare p.2 := by
  unfold moveToFront
  split
  · exact settles_pure (.refl _ _)
  · refine settles_bind (settles_unlink_same c a i) fun p same => settles_pure ?_
    exact same.trans (same_pushFront p.1 p.2 i)

end Chain
end CacheReplay
