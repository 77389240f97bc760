import CacheReplay.GLCache.Segment
import CacheReplay.Proofs.Store

set_option autoImplicit false

namespace CacheReplay
open GLCache

namespace Store
variable {s s' s'' : Store ObjectTag} {i : Slot} {r : Record ObjectTag}

/-- A ghost of an object names a segment. -/
def Haunts (s : Store ObjectTag) (id : Nat) (k : Slot) : Prop :=
  ∃ j u, s.get? j = some u ∧ u.id = id ∧ u.ghost = true ∧ u.tag.segment = k

/-- Live records at some handles have left a ghost each; all other ghosts are those of before. -/
structure Leaves (gone : Slot → Prop) (s s' : Store ObjectTag) : Prop where
  left : ∀ i r, gone i → s.live? i = some r → ∀ k, s'.Haunts r.id k ↔ r.tag.segment = k
  kept : ∀ id, (∀ i r, gone i → s.live? i = some r → r.id ≠ id) →
    ∀ k, s'.Haunts id k ↔ s.Haunts id k

theorem Leaves.congr {gone gone' : Slot → Prop} (h : Leaves gone s s')
    (same : ∀ i, gone' i ↔ gone i) : Leaves gone' s s' := by
  have e : gone' = gone := funext fun i => propext (same i)
  rw [e]
  exact h

theorem Leaves.of_ghosts
    (same : ∀ j u, u.ghost = true → (s'.get? j = some u ↔ s.get? j = some u)) :
    Leaves (fun _ => False) s s' where
  left _ _ none := none.elim
  kept id _ k := by
    refine exists_congr fun j => exists_congr fun u => ?_
    constructor
    · rintro ⟨hu, hid, ghost, at_k⟩
      exact ⟨(same j u ghost).mp hu, hid, ghost, at_k⟩
    · rintro ⟨hu, hid, ghost, at_k⟩
      exact ⟨(same j u ghost).mpr hu, hid, ghost, at_k⟩

theorem Leaves.refl (s : Store ObjectTag) : Leaves (fun _ => False) s s :=
  .of_ghosts fun _ _ _ => .rfl

/-- Records that have left a ghost keep it while others do, since no two of them are of one object. -/
theorem Leaves.trans {gone gone' : Slot → Prop} (h : Leaves gone s s') (k : Leaves gone' s' s'')
    (consistent : s.Consistent) (same : ∀ i, gone' i → s'.live? i = s.live? i) :
    Leaves (fun i => gone i ∨ gone' i) s s'' where
  left i r hi hr m := by
    by_cases later : gone' i
    · exact k.left i r later ((same i later).trans hr) m
    · rw [k.kept r.id fun j u hj hu e => later ?_, h.left i r (hi.resolve_right later) hr m]
      rw [same j hj] at hu
      have hi := (live?_eq_some_iff s i r).mp hr
      have hj' := (live?_eq_some_iff s j u).mp hu
      exact consistent.live_unique hj'.1 hi.1 hj'.2 hi.2 e ▸ hj
  kept id none m := by
    rw [k.kept id fun i r hi hr => none i r (.inr hi) ((same i hi).symm.trans hr),
      h.kept id fun i r hi hr => none i r (.inl hi) hr]

theorem Consistent.leaves_of_displaced (h : s.Consistent) (hr : s.live? i = some r) {j : Slot}
    {u : Record ObjectTag} (self : s'.get? j = some u)
    (copy : u.id = r.id ∧ u.ghost = true ∧ u.tag = r.tag)
    (blank : ∀ v, s.get? j = some v → v.ghost = false)
    (other : ∀ m, m ≠ j → s'.get? m = if s.findGhost? r.id = some m then none else s.get? m) :
    Leaves (fun m => m = i) s s' where
  left m v hm hv k := by
    rw [hm, hr] at hv
    cases hv
    constructor
    · rintro ⟨m, v, hv, hid, ghost, at_k⟩
      by_cases e : m = j
      · rw [e, self] at hv
        cases hv
        rw [← copy.2.2]
        exact at_k
      · rw [other m e] at hv
        split at hv
        · cases hv
        · rename_i older
          exact absurd ((h.findGhost?_eq_some_iff r.id m).mpr ⟨v, hv, hid, ghost⟩) older
    · intro at_k
      exact ⟨j, u, self, copy.1, copy.2.1, by rw [copy.2.2]; exact at_k⟩
  kept id apart k := by
    have differs := apart i r rfl hr
    have older : ∀ m v, s.get? m = some v → v.id = id → s.findGhost? r.id ≠ some m := by
      intro m v hv hid e
      obtain ⟨w, hw, same, -⟩ := (h.findGhost?_eq_some_iff r.id m).mp e
      rw [hv] at hw
      cases hw
      exact differs (same.symm.trans hid)
    constructor
    · rintro ⟨m, v, hv, hid, ghost, at_k⟩
      by_cases e : m = j
      · rw [e, self] at hv
        cases hv
        exact absurd (copy.1.symm.trans hid) differs
      · rw [other m e] at hv
        split at hv
        · cases hv
        · exact ⟨m, v, hv, hid, ghost, at_k⟩
    · rintro ⟨m, v, hv, hid, ghost, at_k⟩
      have e : m ≠ j := by
        rintro rfl
        rw [blank v hv] at ghost
        cases ghost
      refine ⟨m, v, ?_, hid, ghost, at_k⟩
      rw [other m e, if_neg (older m v hv hid)]
      exact hv

variable (h : s.Consistent) (hr : s.get? i = some r) (live : r.ghost = false)
include h hr live

theorem Consistent.leaves_demoted : Leaves (fun m => m = i) s (s.demoted i) := by
  obtain ⟨-, self, other⟩ := h.demoted hr live
  refine h.leaves_of_displaced ((live?_eq_some_iff s i r).mpr ⟨hr, live⟩) self ⟨rfl, rfl, rfl⟩ ?_ other
  intro v hv
  rw [hr] at hv
  cases hv
  exact live

theorem Consistent.leaves_forkGhost : Leaves (fun m => m = i) s (s.forkGhost i).2 := by
  obtain ⟨k, -, vacant, -, self, other⟩ := h.forkGhost hr live
  refine h.leaves_of_displaced ((live?_eq_some_iff s i r).mpr ⟨hr, live⟩) self ⟨rfl, rfl, rfl⟩ ?_ other
  intro v hv
  rw [vacant] at hv
  cases hv

theorem Consistent.leaves_without : Leaves (fun _ => False) s (s.without i) := by
  obtain ⟨-, get⟩ := h.without hr
  refine .of_ghosts fun j u ghost => ?_
  rw [get]
  split
  · rename_i e
    rw [← e, hr]
    constructor
    · intro none
      cases none
    · intro same
      cases same
      rw [live] at ghost
      cases ghost
  · rfl

omit h in
theorem leaves_modify {f : Record ObjectTag → Record ObjectTag} (hf : (f r).ghost = r.ghost) :
    Leaves (fun _ => False) s (s.modify i f) := by
  refine .of_ghosts fun j u ghost => ?_
  rw [Store.get?_modify]
  split
  · rename_i e
    subst e
    rw [hr, Option.map_some, Option.some.injEq, Option.some.injEq]
    have apart : r ≠ u ∧ f r ≠ u := by
      constructor
      · rintro rfl
        rw [live] at ghost
        cases ghost
      · rintro rfl
        rw [hf, live] at ghost
        cases ghost
    exact iff_of_false apart.2 apart.1
  · rfl

end Store
end CacheReplay
