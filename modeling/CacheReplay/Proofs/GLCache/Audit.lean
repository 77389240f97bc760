import CacheReplay.GLCache.Audit
import CacheReplay.Proofs.GLCache.Ownership

set_option autoImplicit false

namespace CacheReplay

namespace Arena
variable {α : Type}

theorem Sound.length_le {a : Arena α} (h : a.Sound) {s : List Slot} (nodup : s.Nodup)
    (present : ∀ i ∈ s, ∃ v, a.get? i = some v) : s.length ≤ a.size := by
  have le := a.sum_le_total (fun _ => 1) nodup
  have ones : s.map (a.weight fun _ => 1) = s.map fun _ => 1 := by
    refine List.map_congr_left fun i hi => ?_
    obtain ⟨v, hv⟩ := present i hi
    exact weight_of_get? hv _
  rw [ones, ← h.size_eq] at le
  simpa using le

end Arena

namespace GLCache

section objects
variable {s : Store ObjectTag} {l : List Slot} {rs : List (Record ObjectTag)}

theorem heldBytes_of_forall₂ (overhead : Nat) (h : List.Forall₂ (fun i r => s.live? i = some r) l rs) :
    (rs.map fun r => r.size + overhead).sum = heldBytes s overhead l := by
  induction h with
  | nil => rfl
  | cons hr _ ih => simp [heldBytes, Store.liveSize?, hr, ih]

theorem heldActive_of_forall₂ (h : List.Forall₂ (fun i r => s.live? i = some r) l rs) :
    rs.countP (·.tag.active) = heldActive s l := by
  induction h with
  | nil => rfl
  | cons hr _ ih => simp [heldActive, List.countP_cons, hr, ih]

end objects

namespace Contents
variable {c : Contents} (h : c.Sound)
include h

theorem Sound.auditObjects_eq {k : Slot} {g : Segment} (hg : c.table.get? k = some g)
    (home : g.bucket ≠ quarantine) : ∃ rs, c.auditObjects k g = pure rs ∧
      List.Forall₂ (fun i r => c.store.live? i = some r) g.objects.toList rs := by
  have listed : ∀ i ∈ g.objects.toList, ∃ r, c.store.live? i = some r ∧ r.tag.segment = k := by
    intro i hi
    rw [← Table.liveObjects_of_live hg home] at hi
    exact (h.ledger.live k i).mp hi
  unfold auditObjects
  generalize g.objects.toList = l at listed ⊢
  induction l with
  | nil => exact ⟨[], rfl, .nil⟩
  | cons i rest ih =>
    obtain ⟨r, hr, at_k⟩ := listed i List.mem_cons_self
    obtain ⟨get, live⟩ := (c.store.live?_eq_some_iff i r).mp hr
    obtain ⟨rs, found, records⟩ := ih fun j hj => listed j (List.mem_cons_of_mem i hj)
    refine ⟨r :: rs, ?_, .cons hr records⟩
    rw [List.mapM_cons, found, get]
    simp [live, at_k]

theorem Sound.auditSegment_eq {k : Slot} {g : Segment} (hg : c.table.get? k = some g)
    (home : g.bucket ≠ quarantine) : c.auditSegment k g = pure () := by
  obtain ⟨rs, found, records⟩ := h.auditObjects_eq hg home
  have filled := h.filled k g hg home
  have bytes := heldBytes_of_forall₂ c.account.overhead records
  have active := heldActive_of_forall₂ records
  have le : g.bytes ≤ c.account.occupied := by
    have nodup := h.ledger.nodup k
    rw [Table.liveObjects_of_live hg home] at nodup
    rw [filled.bytes]
    exact heldBytes_le h.ledger.balanced nodup
  have word : IsWord (rs.map fun r => r.size + c.account.overhead).sum := by
    rw [bytes, ← filled.bytes]
    exact Nat.lt_of_le_of_lt le h.ledger.balanced.word
  have sum := c.account.footprints_eq rs word
  rw [bytes, ← filled.bytes] at sum
  unfold auditSegment
  rw [if_neg (Nat.not_lt.mpr filled.fits), found]
  simp only [pure_bind]
  rw [sum, Audit.liftM_ok_bind, active, ← filled.active]
  simp

def objectCount (c : Contents) (i : Slot) : Nat := ((c.table.get? i).map (·.objects.size)).getD 0

theorem Sound.auditFrom_eq {k : Nat} {s : List Slot} {before : Option Slot} {left : Nat}
    (threads : Chain.Threads c.table.segments before s none)
    (home : ∀ i ∈ s, ∃ g, c.table.get? i = some g ∧ g.bucket = k) (enough : s.length ≤ left) :
    c.auditFrom k left before s.head? =
      pure ⟨s.length, (s.map c.objectCount).sum, s.getLast?.or before⟩ := by
  induction s generalizing before left with
  | nil => cases left <;> rfl
  | cons i rest ih =>
    cases left with
    | zero => simp at enough
    | succ left =>
      obtain ⟨g, hg, at_k⟩ := home i List.mem_cons_self
      obtain ⟨links, threads⟩ := threads
      have at_i : g.links = ⟨before, rest.head?⟩ := by
        rw [Arena.links?, show c.table.segments.get? i = some g from hg, Option.map_some,
          Option.some.injEq, Option.or_none] at links
        exact links
      have tail := ih threads (fun j hj => home j (List.mem_cons_of_mem i hj))
        (Nat.le_of_succ_le_succ enough)
      have size : g.objects.size = c.objectCount i := by
        rw [objectCount, hg]
        rfl
      have last : (rest.getLast?.or (some i)) = ((i :: rest).getLast?.or before) := by
        cases e : rest.getLast? with
        | none => simp [List.getLast?_eq_none_iff.mp e]
        | some j => simp [List.getLast?_cons, e]
      have found : (do
          let w ← c.auditFrom k left (some i) rest.head?
          pure { w with segments := w.segments + 1, objects := w.objects + g.objects.size } : Audit Walked) =
          pure ⟨(i :: rest).length, ((i :: rest).map c.objectCount).sum, (i :: rest).getLast?.or before⟩ := by
        rw [tail, pure_bind, last, size, List.map_cons, List.sum_cons, Nat.add_comm (c.objectCount i)]
        rfl
      unfold auditFrom
      rw [List.head?_cons]
      dsimp only
      rw [hg]
      dsimp only
      rw [at_k, at_i, if_neg (by simp)]
      split
      · rename_i live
        rw [h.auditSegment_eq hg (by rw [at_k]; exact live), pure_bind]
        exact found
      · exact found

theorem Sound.auditBucket_eq (k : Nat) : c.auditBucket k =
    pure ⟨(c.table.chainOf k).length, ((c.table.chainOf k).map c.objectCount).sum,
      (c.table.chainOf k).getLast?⟩ := by
  have chain := h.strung.family.represents k
  have home : ∀ i ∈ c.table.chainOf k, ∃ g, c.table.get? i = some g ∧ g.bucket = k := fun i hi =>
    (h.strung.mem_iff k i).mp hi
  have enough : (c.table.chainOf k).length ≤ c.table.segments.size :=
    h.strung.sound.length_le chain.nodup fun i hi => chain.get? hi
  have found := h.auditFrom_eq (Chain.Represents.threads chain) home enough
  rw [Option.or_none] at found
  have front : (c.table.bucket k).chain.front = (c.table.chainOf k).head? := chain.front_eq
  have back : (c.table.bucket k).chain.back = (c.table.chainOf k).getLast? := chain.back_eq
  have length : (c.table.bucket k).chain.length = (c.table.chainOf k).length := chain.length_eq
  unfold auditBucket
  dsimp only
  rw [front, found, pure_bind, length, back]
  simp

/-- The lists of the live segments hold every live record once. -/
theorem Sound.sum_objects : (c.table.live.map c.objectCount).sum = c.store.size := by
  have counts : c.table.live.map c.objectCount = c.table.live.map fun k => (c.table.liveObjects k).length := by
    refine List.map_congr_left fun k hk => ?_
    obtain ⟨g, hg, home⟩ := (h.strung.mem_live_iff k).mp hk
    rw [objectCount, hg, Table.liveObjects_of_live hg home]
    rfl
  have nodup : (c.table.live.flatMap c.table.liveObjects).Nodup := by
    rw [List.nodup_flatMap]
    refine ⟨fun k _ => h.ledger.nodup k, ?_⟩
    refine h.strung.nodup_live.imp fun {k m} apart i hk hm => apart ?_
    obtain ⟨r, hr, at_k⟩ := (h.ledger.live k i).mp hk
    obtain ⟨u, hu, at_m⟩ := (h.ledger.live m i).mp hm
    rw [hr] at hu
    cases hu
    exact at_k.symm.trans at_m
  have cover : ∀ i r, c.store.records.get? i = some r → Record.unit false r ≠ 0 →
      i ∈ c.table.live.flatMap c.table.liveObjects := by
    intro i r hr some
    have live : r.ghost = false := by
      by_contra ghost
      exact some (if_neg ghost)
    have alive := (c.store.live?_eq_some_iff i r).mpr ⟨hr, live⟩
    obtain ⟨g, hg, home, -⟩ := h.segment_of_live alive
    rw [List.mem_flatMap]
    exact ⟨_, (h.strung.mem_live_iff _).mpr ⟨g, hg, home⟩, h.ledger.mem_list alive⟩
  have total := Arena.sum_eq_total nodup cover
  rw [counts, ← List.length_flatMap, Store.size, h.ledger.consistent.counted, ← total]
  have ones : (c.table.live.flatMap c.table.liveObjects).map
      (c.store.records.weight (Record.unit false)) =
      (c.table.live.flatMap c.table.liveObjects).map fun _ => 1 := by
    refine List.map_congr_left fun i hi => ?_
    obtain ⟨k, -, hi⟩ := List.mem_flatMap.mp hi
    obtain ⟨r, hr, -⟩ := (h.ledger.live k i).mp hi
    have found := (c.store.live?_eq_some_iff i r).mp hr
    exact (Arena.weight_of_get? found.1 _).trans (if_pos found.2)
  rw [ones]
  simp

theorem Sound.rankFlaw_eq : rankFlaw c.table = none := by
  unfold rankFlaw
  rw [List.findSome?_eq_none_iff]
  intro e he
  obtain ⟨slot, rank⟩ := e
  rw [List.mk_mem_zipIdx_iff_getElem?, Array.getElem?_toList] at he
  cases slot with
  | none => rfl
  | some i =>
    obtain ⟨g, hg, at_rank⟩ := h.ranked.slots rank i he
    simp [hg, at_rank]

omit h in
theorem total_eq (f : Walked → Nat) (ws : List Walked) : Walked.total f ws = (ws.map f).sum := by
  rw [Walked.total, List.sum_eq_foldl, List.foldl_map]

omit h in
theorem mapM_eq_pure {α β : Type} {f : α → Audit β} {g : α → β} {l : List α}
    (each : ∀ x ∈ l, f x = pure (g x)) : l.mapM f = pure (l.map g) := by
  induction l with
  | nil => rfl
  | cons x l ih =>
    rw [List.mapM_cons, each x List.mem_cons_self, ih fun y hy => each y (List.mem_cons_of_mem x hy)]
    simp

theorem Sound.audit_eq : c.audit = pure () := by
  have buckets := mapM_eq_pure (l := List.range liveBuckets) fun k _ => h.auditBucket_eq k
  have segments : Walked.total (·.segments) ((List.range liveBuckets).map fun k =>
      ⟨(c.table.chainOf k).length, ((c.table.chainOf k).map c.objectCount).sum,
        (c.table.chainOf k).getLast?⟩) = c.table.inUse := by
    rw [total_eq, List.map_map, h.strung.inUse_eq, Table.live, List.length_flatMap]
    rfl
  have objects : Walked.total (·.objects) ((List.range liveBuckets).map fun k =>
      ⟨(c.table.chainOf k).length, ((c.table.chainOf k).map c.objectCount).sum,
        (c.table.chainOf k).getLast?⟩) = c.store.size := by
    rw [total_eq, List.map_map, ← h.sum_objects, Table.live, List.map_flatMap, List.flatMap_def,
      List.sum_flatten, List.map_map]
    rfl
  have training : c.table.count quarantine = c.table.training :=
    (h.strung.count_eq quarantine).trans h.strung.counted.training.symm
  have allocated : c.table.segments.size = c.table.inUse + c.table.training := by
    rw [h.strung.inUse_eq, h.strung.length_live]
  unfold Contents.audit
  rw [buckets, h.auditBucket_eq]
  simp only [pure_bind]
  rw [segments, objects, training, allocated, h.rankFlaw_eq,
    h.ledger.balanced.audit_eq h.ledger.consistent h.ledger.within]
  simp [Audit.reject]

end Contents
end GLCache
end CacheReplay
