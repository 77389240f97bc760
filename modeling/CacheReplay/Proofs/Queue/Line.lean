import CacheReplay.Proofs.Chain.Strands
import CacheReplay.Proofs.Queue.Headroom

set_option autoImplicit false

namespace CacheReplay.ObjectQueue
variable {μ : Type}

def line (q : ObjectQueue μ) : List (Slot × Record μ) :=
  q.slotsRev.filterMap fun i => (q.store.get? i).map fun r => (i, bare r)

/-- The queue holds the objects of a line, and each record says what the line does. -/
structure Lined (q : ObjectQueue μ) (l : List (Slot × Record μ)) : Prop where
  holds : q.Holds (l.map Prod.fst).reverse
  record : ∀ e ∈ l, (q.store.get? e.1).map bare = some e.2

/-- Objects change their places or tags, but none comes or goes. -/
structure Steady (q q' : ObjectQueue μ) : Prop where
  account : q'.account = q.account
  index : q'.store.index = q.store.index

namespace Steady
variable {q q' q'' : ObjectQueue μ}

theorem refl (q : ObjectQueue μ) : q.Steady q := ⟨rfl, rfl⟩

theorem trans (h : q.Steady q') (k : q'.Steady q'') : q.Steady q'' :=
  ⟨k.account.trans h.account, k.index.trans h.index⟩

theorem caches_eq (h : q.Steady q') (id : Nat) : q'.store.caches id = q.store.caches id := by
  rw [Store.caches, Store.find?, h.index]
  rfl

end Steady

theorem Holds.slotsRev_eq {q : ObjectQueue μ} {s : List Slot} (h : q.Holds s) :
    q.slotsRev = s.reverse := h.represents.toListRev_eq

theorem Holds.lined {q : ObjectQueue μ} {s : List Slot} (h : q.Holds s) : q.Lined q.line := by
  have slots : q.line.map Prod.fst = s.reverse := by
    rw [line, h.slotsRev_eq, List.map_filterMap]
    have all : ∀ i ∈ s.reverse,
        ((q.store.get? i).map fun r => (i, bare r)).map Prod.fst = some i := by
      intro i hi
      obtain ⟨r, hr, -⟩ := h.exists_get? (List.mem_reverse.mp hi)
      rw [hr]
      rfl
    rw [List.filterMap_congr all, List.filterMap_some]
  constructor
  · rwa [slots, List.reverse_reverse]
  · intro e he
    obtain ⟨i, -, hi⟩ := List.mem_filterMap.mp he
    obtain ⟨r, hr, rfl⟩ := Option.map_eq_some_iff.mp hi
    exact congrArg (Option.map bare) hr

namespace Lined
variable {t : Tolerance} {q : ObjectQueue μ} {l before after : List (Slot × Record μ)}
  {e : Slot × Record μ}

theorem line_eq (h : q.Lined l) : q.line = l := by
  have all : ∀ x ∈ l, ((q.store.get? x.1).map fun r => (x.1, bare r)) = some x := by
    intro x hx
    obtain ⟨r, hr, hbare⟩ := Option.map_eq_some_iff.mp (h.record x hx)
    rw [hr, Option.map_some, hbare]
  rw [line, h.holds.slotsRev_eq, List.reverse_reverse, List.filterMap_map]
  exact (List.filterMap_congr all).trans List.filterMap_some

theorem exists_get? (h : q.Lined l) (he : e ∈ l) : ∃ r, q.store.get? e.1 = some r ∧ bare r = e.2 :=
  Option.map_eq_some_iff.mp (h.record e he)

theorem exists_tag (h : q.Lined l) (he : e ∈ l) :
    ∃ r, q.store.get? e.1 = some r ∧ r.id = e.2.id ∧ r.tag = e.2.tag := by
  obtain ⟨r, hr, hbare⟩ := h.exists_get? he
  rw [← hbare]
  exact ⟨r, hr, rfl, rfl⟩

theorem nodup (h : q.Lined l) : (l.map Prod.fst).Nodup := List.nodup_reverse.mp h.holds.represents.nodup

theorem back_eq (h : q.Lined l) : q.order.back = l.head?.map Prod.fst := by
  rw [h.holds.represents.back_eq, List.getLast?_reverse, List.head?_map]

theorem length_eq (h : q.Lined l) : q.order.length = l.length := by
  rw [h.holds.represents.length_eq, List.length_reverse, List.length_map]

theorem slots_split : ((before ++ e :: after).map Prod.fst).reverse =
    (after.map Prod.fst).reverse ++ e.1 :: (before.map Prod.fst).reverse := by
  simp

theorem prevOf_eq (h : q.Lined (before ++ e :: after)) :
    q.store.records.prevOf e.1 = after.head?.map Prod.fst := by
  rw [h.holds.represents.prevOf slots_split, List.getLast?_reverse, List.head?_map]

/-- The others of a line that is split at an object have other handles. -/
theorem apart (h : q.Lined (before ++ e :: after)) {x : Slot × Record μ} (hx : x ∈ before ++ after) :
    x.1 ≠ e.1 := by
  have nodup := h.nodup
  rw [List.map_append, List.map_cons, List.nodup_middle, List.nodup_cons, ← List.map_append] at nodup
  intro same
  exact nodup.1 (same ▸ List.mem_map_of_mem hx)

theorem yields_drop (h : q.Lined (before ++ e :: after)) : Yields (q.drop e.1) fun q' =>
    q'.Lined (before ++ after) ∧ q'.account = q.account.released e.2.size ∧
      ∀ id, q'.store.caches id = true ↔ q.store.caches id = true ∧ id ≠ e.2.id := by
  obtain ⟨r, hr, hbare⟩ := h.exists_get? (e := e) (by simp)
  apply ((h.holds.yields_drop hr).and (h.holds.settles_drop (t := .any) hr)).mono
  rintro q' ⟨account, holds, -, get, caches⟩
  have slots : ((before ++ e :: after).map Prod.fst).reverse.erase e.1 =
      ((before ++ after).map Prod.fst).reverse := by
    rw [slots_split, Chain.erase_append_cons (slots_split ▸ h.holds.represents.nodup)]
    simp
  rw [slots] at holds
  have size : (bare r).size = e.2.size := congrArg Record.size hbare
  have id : (bare r).id = e.2.id := congrArg Record.id hbare
  refine ⟨⟨holds, fun x hx => ?_⟩, size ▸ account, id ▸ caches⟩
  rw [get, if_neg (Ne.symm (h.apart hx))]
  exact h.record x (List.mem_append.mpr ((List.mem_append.mp hx).imp_right (List.mem_cons_of_mem _)))

theorem moveToFront (h : q.Lined (e :: l)) : ∃ q', q.moveToFront e.1 = .ok q' ∧
    q'.Lined (l ++ [e]) ∧ q.Steady q' := by
  have slots : e.1 :: ((e :: l).map Prod.fst).reverse.erase e.1 = ((l ++ [e]).map Prod.fst).reverse := by
    have split : ((e :: l).map Prod.fst).reverse = (l.map Prod.fst).reverse ++ [e.1] := by simp
    rw [split, Chain.erase_append_cons (split ▸ h.holds.represents.nodup)]
    simp
  obtain ⟨order, records, moved, holds, same⟩ := h.holds.moveToFront (i := e.1) (by simp)
  rw [slots] at holds
  refine ⟨_, moved, ⟨holds, fun x hx => ?_⟩, rfl, rfl⟩
  have mem : x ∈ e :: l := by simpa [or_comm] using hx
  exact (same x.1).trans (h.record x mem)

theorem retag (h : q.Lined (before ++ e :: after)) (tag : μ) :
    Lined { q with store := q.store.modify e.1 fun r => { r with tag } }
      (before ++ (e.1, { e.2 with tag }) :: after) := by
  have slots : (before ++ (e.1, { e.2 with tag }) :: after).map Prod.fst =
      (before ++ e :: after).map Prod.fst := by simp
  refine ⟨slots ▸ h.holds.modify e.1 fun _ => ⟨rfl, rfl, rfl, rfl⟩, fun x hx => ?_⟩
  dsimp only
  rw [Store.get?_modify]
  rcases List.mem_append.mp hx with front | rest
  · rw [if_neg (Ne.symm (h.apart (List.mem_append_left _ front)))]
    exact h.record x (List.mem_append_left _ front)
  rcases List.mem_cons.mp rest with rfl | back
  · obtain ⟨r, hr, hbare⟩ := h.exists_get? (e := e) (by simp)
    rw [if_pos rfl, hr, ← hbare]
    rfl
  · rw [if_neg (Ne.symm (h.apart (List.mem_append_right _ back)))]
    exact h.record x (List.mem_append_right _ (List.mem_cons_of_mem _ back))

end Lined
end CacheReplay.ObjectQueue
