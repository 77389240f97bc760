import CacheReplay.Proofs.GLCache.Housekeeping
import CacheReplay.Proofs.GLCache.Threading

set_option autoImplicit false

namespace CacheReplay
open GLCache

theorem Arena.get?_insert_or {α : Type} {a : Arena α} {v u : α} {i : Slot}
    (h : (a.insert v).2.get? i = some u) : u = v ∨ a.get? i = some u := by
  unfold Arena.insert at h
  split at h
  · simp only [Arena.get?, Array.getElem?_setIfInBounds] at h ⊢
    split at h
    · split at h
      · exact .inl (Option.some.inj h).symm
      · cases h
    · exact .inr h
  · simp only [Arena.get?, Array.getElem?_push] at h ⊢
    split at h
    · exact .inl (Option.some.inj h).symm
    · exact .inr h

namespace GLCache.Table

/-- The ranking names a segment at a position. -/
def Names (a : Table) (p : Nat) (i : Slot) : Prop := a.ranking.slots[p]? = some (some i)

def Unranked (a : Table) (i : Slot) : Prop := ∀ s, a.get? i = some s → s.rank = none

theorem Ranked.not_names {a : Table} (h : a.Ranked) {i : Slot} (unranked : a.Unranked i) (p : Nat) :
    ¬a.Names p i := by
  intro named
  obtain ⟨s, hs, rank⟩ := h.slots p i named
  rw [unranked s hs] at rank
  cases rank

/-- Nothing is named or ranked that was not before, and what keeps its rank stays named. -/
structure Fades (a b : Table) : Prop where
  names : ∀ p i, b.Names p i → a.Names p i
  ranks : ∀ i u p, b.get? i = some u → u.rank = some p → ∃ s, a.get? i = some s ∧ s.rank = some p
  stays : ∀ i u p, b.get? i = some u → u.rank = some p → a.Names p i → b.Names p i

namespace Fades
variable {a b c : Table}

theorem refl (a : Table) : a.Fades a := ⟨fun _ _ h => h, fun _ u _ hu hp => ⟨u, hu, hp⟩, fun _ _ _ _ _ h => h⟩

theorem trans (h : a.Fades b) (k : b.Fades c) : a.Fades c where
  names p i named := h.names p i (k.names p i named)
  ranks i u p hu hp := by
    obtain ⟨s, hs, rank⟩ := k.ranks i u p hu hp
    exact h.ranks i s p hs rank
  stays i u p hu hp named := by
    obtain ⟨s, hs, rank⟩ := k.ranks i u p hu hp
    exact k.stays i u p hu hp (h.stays i s p hs rank named)

theorem unranked (h : a.Fades b) {i : Slot} (unranked : a.Unranked i) : b.Unranked i := by
  intro u hu
  by_contra some
  obtain ⟨p, hp⟩ := Option.ne_none_iff_exists'.mp some
  obtain ⟨s, hs, rank⟩ := h.ranks i u p hu hp
  rw [unranked s hs] at rank
  cases rank

theorem unranked_of_not_names (h : a.Fades b) (ranked : a.Ranked) {p : Nat} {i : Slot} (named : a.Names p i)
    (out : ¬b.Names p i) : b.Unranked i := by
  intro u hu
  by_contra some
  obtain ⟨q, hq⟩ := Option.ne_none_iff_exists'.mp some
  obtain ⟨s, hs, rank⟩ := h.ranks i u q hu hq
  obtain ⟨v, hv, own⟩ := ranked.slots p i named
  cases hs.symm.trans hv
  cases rank.symm.trans own
  exact out (h.stays i u p hu hq named)

theorem of_slots (slots : b.ranking.slots = a.ranking.slots)
    (ranks : ∀ i u p, b.get? i = some u → u.rank = some p → ∃ s, a.get? i = some s ∧ s.rank = some p) :
    a.Fades b where
  names p i named := by
    rw [Names, slots] at named
    exact named
  ranks := ranks
  stays i u p _ _ named := by
    rw [Names, slots]
    exact named

theorem of_same (slots : b.ranking.slots = a.ranking.slots)
    (same : a.segments.Same Segment.rank b.segments) : a.Fades b := by
  refine of_slots slots fun i u p hu hp => ?_
  obtain ⟨s, hs, rank⟩ := same.symm.get? hu
  exact ⟨s, hs, rank.trans hp⟩

end Fades

theorem unranked_clearRank (a : Table) (i : Slot) : (a.clearRank i).Unranked i := by
  intro s hs
  rw [get?_clearRank, if_pos rfl] at hs
  obtain ⟨u, -, rfl⟩ := Option.map_eq_some_iff.mp hs
  rfl

theorem slots_clearRank (a : Table) (i : Slot) (p : Nat) :
    (a.clearRank i).ranking.slots[p]? = a.ranking.slots[p]? ∨
      a.Names p i ∧ (a.clearRank i).ranking.slots[p]? = some none := by
  unfold clearRank
  split
  · exact .inl rfl
  · rename_i r _
    change (a.ranking.slots.modify r (forget i))[p]? = a.ranking.slots[p]? ∨
      a.ranking.slots[p]? = some (some i) ∧ (a.ranking.slots.modify r (forget i))[p]? = some none
    rw [Array.getElem?_modify]
    split
    · cases e : a.ranking.slots[p]? with
      | none => exact .inl rfl
      | some o =>
        by_cases own : o = some i
        · exact .inr ⟨congrArg some own, by simp [forget, own]⟩
        · exact .inl (by simp [forget, own])
    · exact .inl rfl

theorem fades_clearRank (a : Table) (i : Slot) : a.Fades (a.clearRank i) where
  names p j named := by
    rcases a.slots_clearRank i p with same | ⟨-, gone⟩
    · rw [Names, same] at named
      exact named
    · rw [Names, gone] at named
      cases named
  ranks j u p hu hp := by
    rw [get?_clearRank] at hu
    split at hu
    · obtain ⟨s, -, rfl⟩ := Option.map_eq_some_iff.mp hu
      cases hp
    · exact ⟨u, hu, hp⟩
  stays j u p hu hp named := by
    rcases a.slots_clearRank i p with same | ⟨own, -⟩
    · rw [Names, same]
      exact named
    · rw [Names, own] at named
      cases named
      rw [a.unranked_clearRank i u hu] at hp
      cases hp

theorem clearRank_position (a : Table) (i : Slot) :
    (a.clearRank i).ranking.position = a.ranking.position ∧ (a.clearRank i).ranking.count = a.ranking.count := by
  unfold clearRank
  split <;> exact ⟨rfl, rfl⟩

theorem fades_clearRanks (run : List Slot) (a : Table) : a.Fades (run.foldl clearRank a) ∧
    (∀ i ∈ run, (run.foldl clearRank a).Unranked i) ∧
    (run.foldl clearRank a).ranking.position = a.ranking.position := by
  induction run generalizing a with
  | nil => exact ⟨.refl a, nofun, rfl⟩
  | cons i run ih =>
    obtain ⟨fades, cleared, position⟩ := ih (a.clearRank i)
    refine ⟨(a.fades_clearRank i).trans fades, fun j hj => ?_, position.trans (a.clearRank_position i).1⟩
    rcases List.mem_cons.mp hj with rfl | hj
    · exact fades.unranked (a.unranked_clearRank j)
    · exact cleared j hj

structure Rests (a b : Table) : Prop extends Fades a b where
  position : b.ranking.position = a.ranking.position

theorem Rests.of_same {a b : Table} (ranking : b.ranking = a.ranking)
    (same : a.segments.Same Segment.rank b.segments) : a.Rests b :=
  ⟨.of_same (by rw [ranking]) same, by rw [ranking]⟩

theorem countIn_ranking (a : Table) (k : Nat) : (a.countIn k).ranking = a.ranking := by
  unfold countIn
  split <;> rfl

theorem settles_unlink_ranking (a : Table) (i : Slot) :
    Settles .any (a.unlink i) fun b => b.ranking = a.ranking := by
  unfold unlink
  cases a.get? i with
  | none => exact settles_pure rfl
  | some s =>
    apply settles_bind (settles_any _)
    intro p _
    unfold countOut
    dsimp only
    split <;> exact settles_bind (settles_any _) fun _ _ => settles_pure rfl

/-- No operation but a choice uses up a ranking. -/
theorem routine_rests : Routine Rests where
  refl a := ⟨.refl a, rfl⟩
  trans first second := ⟨first.toFades.trans second.toFades, second.position.trans first.position⟩
  modify a i _ rank := .of_same rfl (Arena.same_modify _ _ rank)
  append a i := by
    refine .of_same ?_ ((a.append_same i).1.of_comp Segment.rank fun _ => rfl)
    unfold append
    cases a.get? i with
    | none => rfl
    | some s => exact countIn_ranking _ _
  insertBefore a k anchor i := by
    refine .of_same ?_ ((a.insertBefore_same k anchor i).1.of_comp Segment.rank fun _ => rfl)
    unfold insertBefore
    cases a.get? anchor with
    | none => rfl
    | some s => exact countIn_ranking _ _
  unlink a i := ((a.settles_unlink_same i).and (a.settles_unlink_ranking i)).mono fun _ done =>
    .of_same done.2 (done.1.1.of_comp Segment.rank fun _ => rfl)
  clearRank a i := ⟨a.fades_clearRank i, (a.clearRank_position i).1⟩
  allocate a k time now := by
    apply settles_bind (settles_any _)
    intro nextId _
    refine settles_pure ⟨.of_slots rfl fun j u p hu hp => ?_, rfl⟩
    rcases Arena.get?_insert_or hu with fresh | old
    · rw [fresh] at hp
      cases hp
    · exact ⟨u, old, hp⟩
  remove a i := by
    refine ⟨.of_slots rfl fun j u p hu hp => ⟨u, ?_, hp⟩, rfl⟩
    have get := a.segments.get?_remove i j
    rw [show (a.segments.remove i).2.get? j = some u from hu] at get
    split at get
    · cases get
    · exact get.symm
  emptied _ := .of_same rfl (.refl _ _)

/-- Every rank is named in its slot, and no slot that the position has passed names anything. -/
structure Tidy (a : Table) : Prop where
  named : ∀ i s p, a.get? i = some s → s.rank = some p → a.Names p i
  passed : ∀ p, a.ranking.position = some p → ∀ q < p, ∀ i, ¬a.Names q i

namespace Tidy
variable {a b : Table}

theorem of_fades (h : a.Tidy) (fades : a.Fades b)
    (passed : ∀ p, b.ranking.position = some p → ∀ q < p, ∀ i, ¬b.Names q i) : b.Tidy where
  named i u p hu hp := by
    obtain ⟨s, hs, rank⟩ := fades.ranks i u p hu hp
    exact fades.stays i u p hu hp (h.named i s p hs rank)
  passed := passed

theorem of_rests (h : a.Tidy) (rests : a.Rests b) : b.Tidy :=
  h.of_fades rests.toFades fun p hp q hq i named =>
    h.passed p (rests.position ▸ hp) q hq i (rests.names q i named)

theorem of_reordered {order : List Slot} (h : a.Reordered b order) : b.Tidy where
  named i u p hu hp := by
    have live : i ∈ order := by
      obtain ⟨s, hs, home⟩ := (h.segments.of_comp (g := Segment.bucket) Segment.bucket fun _ => rfl).symm.get? hu
      refine (h.members i).mpr ⟨s, hs, fun away => ?_⟩
      rw [h.quarantined i u hu (home.symm.trans away)] at hp
      cases hp
    obtain ⟨q, hq⟩ := List.mem_iff_getElem?.mp live
    obtain ⟨v, hv, rank⟩ := h.ranks q i hq
    cases hu.symm.trans hv
    cases hp.symm.trans rank
    obtain ⟨m, slots⟩ := h.slots
    have lt : p < (order.map some).length := by
      rw [List.length_map]
      exact (List.getElem?_eq_some_iff.mp hq).1
    rw [Names, ← Array.getElem?_toList, slots, List.getElem?_append_left lt, List.getElem?_map, hq]
    rfl
  passed p hp q hq := by
    rw [h.position] at hp
    cases hp
    omega

end Tidy

theorem tidy_empty (segmentSize : Nat) : (empty segmentSize).Tidy where
  named i s p h := by simp [empty, get?, Arena.get?_empty] at h
  passed p hp q hq := by
    cases hp
    omega

end GLCache.Table
end CacheReplay
