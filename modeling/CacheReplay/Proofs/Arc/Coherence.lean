import CacheReplay.Proofs.Arc.Headroom
import Mathlib.Data.List.Dedup

set_option autoImplicit false

namespace CacheReplay.Arc

def slots (c : Arc) (tier : Tier) (ghost : Bool) : List Slot :=
  (c.list tier ghost).order.toList c.store.records

/-- The handles on all four lists. -/
def allSlots (c : Arc) : List Slot :=
  c.slots .recent false ++ c.slots .frequent false ++ c.slots .recent true ++ c.slots .frequent true

def footprintOf (c : Arc) (s : List Slot) : Nat :=
  ((s.filterMap c.store.get?).map fun r => r.size + c.account.overhead).sum

structure Coherent (c : Arc) : Prop where
  /-- Each list is linked both ways, from its front to its back and without repetition. -/
  chains : ∀ tier ghost,
    (c.list tier ghost).order.Represents c.store.records (c.slots tier ghost)
  disjoint : ∀ tier ghost tier' ghost' i, i ∈ c.slots tier ghost → i ∈ c.slots tier' ghost' →
    tier = tier' ∧ ghost = ghost'
  /-- Together the lists name every record of the store once. -/
  listed : c.allSlots.Perm (c.store.toList.map (·.1))
  places : ∀ tier ghost i, i ∈ c.slots tier ghost ↔
    ∃ r, c.store.get? i = some r ∧ r.tag = tier ∧ r.ghost = ghost
  bytes : ∀ tier ghost, (c.list tier ghost).bytes = c.footprintOf (c.slots tier ghost)
  occupied : c.t1.bytes + c.t2.bytes = c.account.occupied
  within : c.account.occupied ≤ c.account.capacity
  objects : c.account.objects = c.store.liveList.length ∧ c.account.objects = c.store.size
  indexes : c.store.Consistent
  /-- No object is both cached and a ghost. -/
  exclusive : ∀ id, c.store.find? id = none ∨ c.store.findGhost? id = none

theorem held_eq_footprintOf (c : Arc) (s : List Slot) :
    held c.account.overhead c.store.records s = c.footprintOf s := by
  induction s with
  | nil => rfl
  | cons i s ih =>
    unfold held footprintOf at ih ⊢
    rw [List.map_cons, List.sum_cons, ih, List.filterMap_cons]
    cases e : c.store.get? i with
    | none => rw [Arena.weight_of_none e, Nat.zero_add]
    | some r => rw [Arena.weight_of_get? e, List.map_cons, List.sum_cons]

namespace Lists
variable {c : Arc} {seqs : Tier × Bool → List Slot} (L : c.Lists seqs none)
include L

theorem slots_eq (tier : Tier) (ghost : Bool) : c.slots tier ghost = seqs (tier, ghost) :=
  (L.family.represents (tier, ghost)).toList_eq

theorem allSlots_eq : c.allSlots = seqs (.recent, false) ++ seqs (.frequent, false) ++
    seqs (.recent, true) ++ seqs (.frequent, true) := by
  rw [allSlots, L.slots_eq, L.slots_eq, L.slots_eq, L.slots_eq]

theorem apart {k m : Tier × Bool} (h : k ≠ m) {i : Slot} (hi : i ∈ seqs k) {j : Slot}
    (hj : j ∈ seqs m) : i ≠ j := by
  intro e
  subst e
  exact h (L.family.disjoint k m i hi hj)

theorem nodup_allSlots : c.allSlots.Nodup := by
  have nodup := fun k => (L.family.represents k).nodup
  rw [L.allSlots_eq]
  refine List.nodup_append.mpr ⟨List.nodup_append.mpr ⟨List.nodup_append.mpr
    ⟨nodup _, nodup _, fun i hi j hj => L.apart (by decide) hi hj⟩, nodup _, ?_⟩, nodup _, ?_⟩
  · intro i hi j hj
    rcases List.mem_append.mp hi with hi | hi
    · exact L.apart (by decide) hi hj
    · exact L.apart (by decide) hi hj
  · intro i hi j hj
    rcases List.mem_append.mp hi with hi | hi
    · rcases List.mem_append.mp hi with hi | hi
      · exact L.apart (by decide) hi hj
      · exact L.apart (by decide) hi hj
    · exact L.apart (by decide) hi hj

theorem mem_allSlots_iff (i : Slot) : i ∈ c.allSlots ↔ ∃ r, c.store.get? i = some r := by
  rw [L.allSlots_eq, List.mem_append, List.mem_append, List.mem_append, L.mem_iff, L.mem_iff,
    L.mem_iff, L.mem_iff]
  constructor
  · rintro (((found | found) | found) | found)
    all_goals
      obtain ⟨r, hr, -⟩ := found
      exact ⟨r, hr⟩
  · rintro ⟨r, hr⟩
    cases tag : r.tag <;> cases ghost : r.ghost <;> simp [hr, Record.place, tag, ghost]

theorem perm_toList : c.allSlots.Perm (c.store.toList.map (·.1)) := by
  apply (List.perm_ext_iff_of_nodup L.nodup_allSlots c.store.records.nodup_toList_fst).mpr
  intro i
  rw [L.mem_allSlots_iff, List.mem_map]
  constructor
  · rintro ⟨r, hr⟩
    exact ⟨(i, r), (c.store.records.mem_toList_iff i r).mpr hr, rfl⟩
  · rintro ⟨⟨j, r⟩, hj, rfl⟩
    exact ⟨r, (c.store.records.mem_toList_iff j r).mp hj⟩

theorem auditSlots_eq {tier : Tier} {ghost : Bool} {s : List Slot} (sub : s ⊆ seqs (tier, ghost))
    {sum : Nat} (word : IsWord (sum + held c.account.overhead c.store.records s)) :
    c.auditSlots tier ghost sum s = pure (sum + held c.account.overhead c.store.records s) := by
  induction s generalizing sum with
  | nil => rfl
  | cons i s ih =>
    obtain ⟨r, hr, place⟩ := (L.mem_iff (tier, ghost) i).mp (sub List.mem_cons_self)
    have tag : r.tag = tier := congrArg Prod.fst place
    have kind : r.ghost = ghost := congrArg Prod.snd place
    have first : held c.account.overhead c.store.records (i :: s) =
        (r.size + c.account.overhead) + held c.account.overhead c.store.records s := by
      rw [held, List.map_cons, List.sum_cons, Arena.weight_of_get? hr]
      rfl
    rw [first] at word ⊢
    have own : IsWord (r.size + c.account.overhead) := by
      unfold IsWord at word ⊢
      omega
    have grown : IsWord (sum + (r.size + c.account.overhead)) := by
      unfold IsWord at word ⊢
      omega
    have footprint : c.account.footprint r.size = .ok (r.size + c.account.overhead) :=
      (c.account.footprint_eq_ok_iff _ _).mpr ⟨rfl, own⟩
    have added : addWord sum (r.size + c.account.overhead) = .ok (sum + (r.size + c.account.overhead)) :=
      (addWord_eq_ok_iff _ _ _).mpr ⟨rfl, grown⟩
    unfold auditSlots
    simp only [hr, tag, kind, ne_eq, not_true_eq_false, or_self, if_false]
    rw [footprint, Audit.liftM_ok_bind, added, Audit.liftM_ok_bind,
      ih (fun j hj => sub (List.mem_cons_of_mem i hj)) (by rwa [Nat.add_assoc]), Nat.add_assoc]

theorem auditList_eq (ranged : c.Ranged) (tier : Tier) (ghost : Bool) :
    c.auditList tier ghost = pure (c.slots tier ghost).length := by
  have bytes := L.bytes (tier, ghost)
  have word := ranged (tier, ghost)
  rw [bytesOf, bytes] at word
  unfold auditList
  dsimp only
  rw [show (c.list tier ghost).order.toList c.store.records = c.slots tier ghost from rfl,
    L.slots_eq, L.auditSlots_eq (List.Subset.refl _) (by rwa [Nat.zero_add]), Nat.zero_add]
  simp [bytes]

end Lists

namespace Sound
variable {c : Arc} (h : c.Sound)
include h

theorem coherent : c.Coherent := by
  obtain ⟨seqs, L⟩ := h.lists
  constructor
  · intro tier ghost
    rw [L.slots_eq]
    exact L.family.represents (tier, ghost)
  · intro tier ghost tier' ghost' i hi hj
    rw [L.slots_eq] at hi hj
    exact Prod.mk.inj (L.family.disjoint _ _ i hi hj)
  · exact L.perm_toList
  · intro tier ghost i
    rw [L.slots_eq, L.mem_iff]
    exact exists_congr fun r => and_congr_right fun _ => Prod.mk.injEq ..  ▸ Iff.rfl
  · intro tier ghost
    rw [L.slots_eq, ← c.held_eq_footprintOf]
    exact L.bytes (tier, ghost)
  · exact h.occupied_eq
  · exact h.within
  · refine ⟨?_, h.balanced.objects.trans h.consistent.counted.symm⟩
    have count := c.store.sum_liveList fun _ => 1
    rw [h.balanced.objects]
    have ones : (fun r : Record Tier => if r.ghost then 0 else 1) = Record.unit false := by
      funext r
      cases e : r.ghost <;> simp [Record.unit, e]
    rw [ones] at count
    simpa using count.symm
  · exact h.consistent
  · intro id
    cases found : c.store.find? id with
    | none => exact .inl rfl
    | some i =>
      obtain ⟨r, hr, rfl, live⟩ := (h.consistent.find?_eq_some_iff id i).mp found
      exact .inr (h.findGhost?_of_live hr live)

/-- The audit finds nothing wrong but, possibly, the range of the target. -/
theorem audit_eq (ranged : c.Ranged) : c.audit =
    if 0 ≤ c.target ∧ c.target ≤ Floating.ofNat c.account.capacity then pure ()
    else throw (.targetRange (Decimal.positional c.target)) := by
  obtain ⟨seqs, L⟩ := h.lists
  have count := L.perm_toList.length_eq
  rw [List.length_map, allSlots, List.length_append, List.length_append, List.length_append] at count
  have sum : addWord c.t1.bytes c.t2.bytes = .ok c.account.occupied :=
    (addWord_eq_ok_iff _ _ _).mpr ⟨h.occupied_eq.symm, h.balanced.word⟩
  unfold audit
  rw [L.auditList_eq ranged, L.auditList_eq ranged, L.auditList_eq ranged, L.auditList_eq ranged,
    h.balanced.audit_eq h.consistent h.within]
  simp only [pure_bind, count, ne_eq, not_true_eq_false, if_false, sum, Audit.liftM_ok_bind]
  by_cases inside : 0 ≤ c.target ∧ c.target ≤ Floating.ofNat c.account.capacity
  · simp [inside]
  · simp [inside]

end Sound

open EvictionPolicy

/--
Whatever a run has done before, the four lists of the cache share out the records
of its store, all counters agree with them, and the audit passes up to the range
of the target. No byte counter is ever lowered below zero: a run whose sums stay
in range has a result.
-/
theorem run_sharesOut (capacity overhead : Nat) (ops : List Operation) :
    (Settles .arithmetic (run (empty capacity overhead) ops) fun c =>
      c.account.capacity = capacity ∧ c.account.overhead = overhead ∧ c.Coherent ∧
      EvictionPolicy.audit c =
        if 0 ≤ c.target ∧ c.target ≤ Floating.ofNat capacity then pure ()
        else throw (.targetRange (Decimal.positional c.target))) ∧
    (IsWord (2 * capacity) → IsWord (ops.map (Operation.cost overhead)).sum →
      (∀ op ∈ ops, op.Timely) → ∃ c, run (empty capacity overhead) ops = .ok c) := by
  constructor
  · have ranged := (dependable.keeping (t := .arithmetic) keeps_ranged).settles_run _ ops
      ⟨sound_empty capacity overhead, ranged_empty capacity overhead⟩
    have built := (dependable_builtWith (t := .arithmetic) capacity overhead).settles_run _ ops
      ⟨sound_empty capacity overhead, rfl, rfl⟩
    apply (ranged.and built).mono
    intro c kept
    obtain ⟨⟨sound, ranged⟩, -, built⟩ := kept
    refine ⟨built.capacity, built.overhead, sound.coherent, ?_⟩
    rw [← show c.account.capacity = capacity from built.capacity]
    exact sound.audit_eq ranged
  · exact exists_run

theorem run_sharesOut_returning : ∃ c, run (empty 8 1) [.get (.ofId 1 2 0), .get ⟨2, 0, 0, none, some 5⟩,
    .get (.ofId 3 5 1), .get (.ofId 1 2 2), .check ⟨2, 0, 9, none, none⟩ true, .check (.ofId 3 5 9) false,
    .remove 3, .evict (.ofId 4 7 9), .get (.ofId 3 4 10)] = .ok c ∧ c.Coherent := by
  have both : ∀ ops, (∃ c, run (empty 8 1) ops = .ok c) →
      ∃ c, run (empty 8 1) ops = .ok c ∧ c.Coherent := by
    intro ops answers
    obtain ⟨c, e⟩ := answers
    have shared := (run_sharesOut 8 1 ops).1
    rw [e] at shared
    exact ⟨c, e, shared.2.2.1⟩
  exact both _ ((run_sharesOut 8 1 _).2 (by decide) (by decide)
    (by simp [Operation.Timely, Request.Timely, IsTime, timeBound, Request.ofId]))

end CacheReplay.Arc
