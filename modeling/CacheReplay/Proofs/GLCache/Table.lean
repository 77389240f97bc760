import CacheReplay.GLCache.Segment
import CacheReplay.Proofs.Chain
import Mathlib.Algebra.BigOperators.Group.Finset.Piecewise

set_option autoImplicit false

namespace CacheReplay.GLCache

instance : LawfulLinked Segment where
  links_withLinks _ _ := rfl
  withLinks_withLinks _ _ _ := rfl
  withLinks_links _ := rfl

/-- A segment without what links, ranks and rates it. -/
def Segment.cargo (s : Segment) : Segment :=
  { s with links := .detached, rank := none, nextRanked := none, utility := 0 }

theorem Segment.eq_of_cargo {s u : Segment} (e : s.cargo = u.cargo) :
    s.bucket = u.bucket ∧ s.objects = u.objects ∧ s.bytes = u.bytes ∧ s.active = u.active := by
  simp only [cargo, Segment.mk.injEq] at e
  simp [e]

def Segment.sample? (s : Segment) : Option (Nat × Option Nat) :=
  if s.sampled then some (s.id, s.row) else none

namespace Table

variable {t : Tolerance}

def sample? (a : Table) (i : Slot) : Option (Nat × Option Nat) := (a.get? i).bind Segment.sample?

/-- The row that collects the label of a segment. -/
def rowOf? (a : Table) (i : Slot) : Option Nat := (a.sample? i).bind (·.2)

theorem sample?_of_get? {a : Table} {i : Slot} {s : Segment} (hs : a.get? i = some s) :
    a.sample? i = s.sample? := by
  rw [sample?, hs, Option.bind_some]

theorem sample?_of_none {a : Table} {i : Slot} (h : a.get? i = none) : a.sample? i = none := by
  rw [sample?, h, Option.bind_none]

theorem sample?_of_cargo {a b : Table} {i : Slot}
    (h : (b.get? i).map Segment.cargo = (a.get? i).map Segment.cargo) : b.sample? i = a.sample? i := by
  have read : ∀ o : Option Segment, o.bind Segment.sample? = (o.map Segment.cargo).bind Segment.sample? := by
    intro o
    cases o <;> rfl
  rw [sample?, sample?, read, h, ← read]

theorem sample?_modify (a : Table) (i : Slot) {f : Segment → Segment}
    (hf : ∀ s, a.get? i = some s → (f s).sample? = s.sample?) :
    (a.modify i f).sample? = a.sample? := by
  funext j
  rw [sample?, sample?, get?_modify]
  split
  · rename_i e
    subst e
    cases hs : a.get? i with
    | none => rfl
    | some s => exact hf s hs
  · rfl

def chains (a : Table) (k : Nat) : Chain := (a.bucket k).chain

theorem bucket_modifyBucket {a : Table} {k : Nat} (hk : k < a.buckets.size) (f : Bucket → Bucket)
    (m : Nat) : (a.modifyBucket k f).bucket m = if m = k then f (a.bucket k) else a.bucket m := by
  simp only [bucket, modifyBucket, Array.getElem?_modify]
  by_cases e : k = m
  · subst e
    simp [hk]
  · simp [e, Ne.symm e]

theorem modify_modify (a : Table) (i : Slot) (f g : Segment → Segment) :
    (a.modify i f).modify i g = a.modify i fun s => g (f s) := by
  simp only [modify, Arena.modify_modify]

theorem bucket_of_size_le {a : Table} {k : Nat} (hk : a.buckets.size ≤ k) : a.bucket k = .empty := by
  simp [bucket, Array.getElem?_eq_none hk]

theorem countIn_same (a : Table) (k : Nat) :
    (a.countIn k).segments = a.segments ∧ (a.countIn k).nextId = a.nextId := by
  unfold countIn
  split <;> exact ⟨rfl, rfl⟩

theorem append_same (a : Table) (i : Slot) :
    a.segments.Same bare (a.append i).segments ∧ (a.append i).nextId = a.nextId := by
  unfold append
  cases a.get? i with
  | none => exact ⟨.refl _ _, rfl⟩
  | some s =>
    dsimp only
    rw [(countIn_same _ _).1, (countIn_same _ _).2]
    exact ⟨Chain.same_pushBack (a.bucket s.bucket).chain a.segments i, rfl⟩

theorem insertBefore_same (a : Table) (k : Nat) (anchor i : Slot) :
    a.segments.Same bare (a.insertBefore k anchor i).segments ∧
      (a.insertBefore k anchor i).nextId = a.nextId := by
  unfold insertBefore
  cases a.get? anchor with
  | none => exact ⟨.refl _ _, rfl⟩
  | some s =>
    dsimp only
    rw [(countIn_same _ _).1, (countIn_same _ _).2]
    exact ⟨Chain.same_insertBefore (a.bucket k).chain a.segments i anchor, rfl⟩

theorem settles_unlink_same (a : Table) (i : Slot) :
    Settles t (a.unlink i) fun b => a.segments.Same bare b.segments ∧ b.nextId = a.nextId := by
  have out : ∀ (b : Table) (k : Nat), Settles t (b.countOut k) fun d =>
      d.segments = b.segments ∧ d.nextId = b.nextId := by
    intro b k
    unfold countOut
    split
    · exact settles_bind (settles_subWord _ _) fun _ _ => settles_pure ⟨rfl, rfl⟩
    · exact settles_bind (settles_subWord _ _) fun _ _ => settles_pure ⟨rfl, rfl⟩
  unfold unlink
  cases a.get? i with
  | none => exact settles_pure ⟨.refl _ _, rfl⟩
  | some s =>
    refine settles_bind (Chain.settles_unlink_same (a.bucket s.bucket).chain a.segments i) fun p same => ?_
    refine (out _ s.bucket).mono fun b counted => ⟨?_, counted.2⟩
    rw [counted.1]
    exact same

structure Counted (inUse training : Nat) (seqs : Nat → List Slot) : Prop where
  inUse : inUse = ∑ k ∈ Finset.range liveBuckets, (seqs k).length
  training : training = (seqs quarantine).length

theorem sum_length_update (seqs : Nat → List Slot) {k n : Nat} (hk : k < n) (l : List Slot) :
    ∑ m ∈ Finset.range n, (Function.update seqs k l m).length + (seqs k).length =
      ∑ m ∈ Finset.range n, (seqs m).length + l.length := by
  have split : ∀ r : List Slot, ∑ m ∈ Finset.range n, (Function.update seqs k r m).length =
      r.length + ∑ m ∈ Finset.range n \ {k}, (seqs m).length := by
    intro r
    simp only [Function.apply_update (fun _ => List.length) seqs k r]
    exact Finset.sum_update_of_mem (Finset.mem_range.mpr hk) _ _
  have before := split (seqs k)
  have after := split l
  rw [Function.update_eq_self] at before
  omega

namespace Counted
variable {a : Table} {seqs : Nat → List Slot} {inUse training k : Nat} {l : List Slot}

theorem update_quarantine (h : Counted inUse training seqs) (l : List Slot) :
    Counted inUse l.length (Function.update seqs quarantine l) := by
  refine ⟨h.inUse.trans (Finset.sum_congr rfl fun m hm => ?_), ?_⟩
  · have apart : m ≠ quarantine := Nat.ne_of_lt (Finset.mem_range.mp hm)
    rw [Function.update_of_ne apart]
  · rw [Function.update_self]

theorem update_live (h : Counted inUse training seqs) (hk : k < liveBuckets) {n : Nat}
    (moved : n + (seqs k).length = inUse + l.length) :
    Counted n training (Function.update seqs k l) := by
  constructor
  · have sum := sum_length_update seqs hk l
    have := h.inUse
    omega
  · have apart : quarantine ≠ k := Nat.ne_of_gt hk
    rw [Function.update_of_ne apart]
    exact h.training

theorem length_le (h : Counted inUse training seqs) (hk : k < liveBuckets) :
    (seqs k).length ≤ inUse := by
  rw [h.inUse]
  exact Finset.single_le_sum (fun m _ => Nat.zero_le (seqs m).length) (Finset.mem_range.mpr hk)

theorem countIn (h : Counted a.inUse a.training seqs) (hk : k ≤ quarantine)
    (longer : l.length = (seqs k).length + 1) : ∃ inUse training,
      a.countIn k = { a with inUse, training } ∧ Counted inUse training (Function.update seqs k l) := by
  unfold Table.countIn
  split
  · rename_i e
    rw [e] at longer ⊢
    have counted := h.update_quarantine l
    rw [longer, ← h.training] at counted
    exact ⟨a.inUse, a.training + 1, rfl, counted⟩
  · rename_i live
    exact ⟨a.inUse + 1, a.training, rfl, h.update_live (Nat.lt_of_le_of_ne hk live) (by omega)⟩

theorem countOut (h : Counted a.inUse a.training seqs) (hk : k ≤ quarantine)
    (shorter : l.length + 1 = (seqs k).length) : ∃ inUse training,
      a.countOut k = .ok { a with inUse, training } ∧
        Counted inUse training (Function.update seqs k l) := by
  unfold Table.countOut
  split
  · rename_i e
    have counted := h.update_quarantine l
    have training := h.training
    rw [e] at shorter
    rw [subWord_of_le (by omega)]
    refine ⟨a.inUse, a.training - 1, rfl, ?_⟩
    rw [e, training, ← shorter]
    exact counted
  · rename_i live
    have hk := Nat.lt_of_le_of_ne hk live
    have enough := h.length_le hk
    rw [subWord_of_le (by omega)]
    exact ⟨a.inUse - 1, a.training, rfl, h.update_live hk (by omega)⟩

end Counted

structure Strung (a : Table) (seqs : Nat → List Slot) (loose : Option Slot) : Prop where
  sound : a.segments.Sound
  size_buckets : a.buckets.size = liveBuckets + 1
  family : Chain.Family a.chains a.segments seqs
  mem : ∀ k i, some i ≠ loose → (i ∈ seqs k ↔ ∃ s, a.get? i = some s ∧ s.bucket = k)
  cursor : ∀ k i, (a.bucket k).cursor = some i → i ∈ seqs k
  counted : Counted a.inUse a.training seqs

theorem strung_empty (segmentSize : Nat) : (empty segmentSize).Strung (fun _ => []) none where
  sound := Arena.sound_empty
  size_buckets := by simp [empty]
  family := by
    refine ⟨fun k => ?_, fun k l i hi => nomatch hi⟩
    have e : (empty segmentSize).chains k = .empty := by
      simp only [chains, bucket, empty, Array.getElem?_replicate]
      split <;> rfl
    rw [e]
    exact Chain.represents_empty _
  mem k i _ := by simp [empty, get?, Arena.get?_empty]
  cursor k i h := by
    simp only [bucket, empty, Array.getElem?_replicate] at h
    split at h <;> cases h
  counted := ⟨by simp [empty], rfl⟩

namespace Strung
variable {a b : Table} {seqs : Nat → List Slot} {loose : Option Slot} {k : Nat} {i : Slot}
  {s : Segment}

theorem mem_iff (h : a.Strung seqs none) (k : Nat) (i : Slot) :
    i ∈ seqs k ↔ ∃ s, a.get? i = some s ∧ s.bucket = k :=
  h.mem k i (Option.some_ne_none i)

theorem loosen (h : a.Strung seqs none) (loose : Option Slot) : a.Strung seqs loose :=
  ⟨h.sound, h.size_buckets, h.family, fun k i _ => h.mem_iff k i, h.cursor, h.counted⟩

/-- A segment is no longer loose once it is where it belongs. -/
theorem fasten (h : a.Strung seqs (some i))
    (place : ∀ k, i ∈ seqs k ↔ ∃ s, a.get? i = some s ∧ s.bucket = k) : a.Strung seqs none := by
  refine ⟨h.sound, h.size_buckets, h.family, fun k j _ => ?_, h.cursor, h.counted⟩
  by_cases e : j = i
  · subst e
    exact place k
  · exact h.mem k j fun same => e (Option.some.inj same)

theorem chainOf_eq (h : a.Strung seqs loose) (k : Nat) : a.chainOf k = seqs k :=
  (h.family.represents k).toList_eq

theorem listed (h : a.Strung seqs loose) : a.Strung a.chainOf loose := by
  have e : a.chainOf = seqs := funext h.chainOf_eq
  rw [e]
  exact h

theorem count_eq (h : a.Strung seqs loose) (k : Nat) : a.count k = (seqs k).length :=
  (h.family.represents k).length_eq

theorem lt_of_mem (h : a.Strung seqs loose) (hi : i ∈ seqs k) : k < a.buckets.size := by
  by_contra hk
  have front := (h.family.represents k).front_eq
  rw [chains, bucket_of_size_le (Nat.le_of_not_lt hk)] at front
  rw [List.head?_eq_none_iff.mp front.symm] at hi
  cases hi

theorem exists_get? (h : a.Strung seqs loose) (hi : i ∈ seqs k) : ∃ s, a.get? i = some s :=
  (h.family.represents k).get? hi

theorem le_of_mem (h : a.Strung seqs loose) (hi : i ∈ seqs k) : k ≤ quarantine := by
  have lt := h.lt_of_mem hi
  rw [h.size_buckets] at lt
  exact Nat.le_of_lt_succ lt

/-- Segments and buckets change, but neither links and homes nor chains. -/
theorem of_parts (h : a.Strung seqs loose) (sound : b.segments.Sound)
    (same : a.segments.Same (fun s => (s.links, s.bucket)) b.segments)
    (size : b.buckets.size = a.buckets.size)
    (chain : ∀ k, (b.bucket k).chain = (a.bucket k).chain)
    (cursor : ∀ k i, (b.bucket k).cursor = some i → i ∈ seqs k)
    (counters : b.inUse = a.inUse ∧ b.training = a.training) : b.Strung seqs loose := by
  have links : ∀ j, b.segments.links? j = a.segments.links? j := fun j =>
    same.of_comp (g := Linked.links) (fun e => e.1) (fun _ => rfl) j
  have home : ∀ j, (b.get? j).map Segment.bucket = (a.get? j).map Segment.bucket := fun j =>
    same.of_comp (g := Segment.bucket) (fun e => e.2) (fun _ => rfl) j
  refine ⟨sound, size.trans h.size_buckets, ?_, fun k j hj => ?_, cursor, ?_⟩
  · have e : b.chains = a.chains := funext chain
    rw [e]
    exact h.family.congr fun k j _ => links j
  · rw [h.mem k j hj, ← Option.map_eq_some_iff, ← Option.map_eq_some_iff, home]
  · rw [counters.1, counters.2]
    exact h.counted

theorem of_same (h : a.Strung seqs loose) (sound : b.segments.Sound)
    (same : a.segments.Same (fun s => (s.links, s.bucket)) b.segments)
    (buckets : b.buckets = a.buckets)
    (counters : b.inUse = a.inUse ∧ b.training = a.training) : b.Strung seqs loose := by
  have bucket : ∀ k, b.bucket k = a.bucket k := fun k => by rw [Table.bucket, Table.bucket, buckets]
  exact h.of_parts sound same (by rw [buckets]) (fun k => by rw [bucket])
    (fun k j hj => h.cursor k j (bucket k ▸ hj)) counters

theorem modify (h : a.Strung seqs loose) (i : Slot) {f : Segment → Segment}
    (hf : ∀ s, a.get? i = some s → (f s).links = s.links ∧ (f s).bucket = s.bucket) :
    (a.modify i f).Strung seqs loose := by
  refine h.of_same (h.sound.modify i f) (Arena.same_modify _ _ fun s hs => ?_) rfl ⟨rfl, rfl⟩
  rw [(hf s hs).1, (hf s hs).2]

theorem modify_loose (h : a.Strung seqs (some i)) {f : Segment → Segment}
    (hf : ∀ s, (f s).links = s.links) : (a.modify i f).Strung seqs (some i) := by
  have same : a.segments.Same Linked.links (a.modify i f).segments :=
    Arena.same_modify _ _ fun s _ => hf s
  refine ⟨h.sound.modify i f, h.size_buckets, h.family.congr fun k j _ => same j, ?_, h.cursor,
    h.counted⟩
  intro k j hj
  rw [h.mem k j hj, get?_modify, if_neg fun e => hj (congrArg some e.symm)]

theorem modifyBucket (h : a.Strung seqs loose) {f : Bucket → Bucket}
    (chain : (f (a.bucket k)).chain = (a.bucket k).chain)
    (cursor : ∀ j, (f (a.bucket k)).cursor = some j → j ∈ seqs k) :
    (a.modifyBucket k f).Strung seqs loose := by
  have bucket : ∀ m, (a.modifyBucket k f).bucket m = a.bucket m ∨
      m = k ∧ (a.modifyBucket k f).bucket m = f (a.bucket k) := by
    intro m
    by_cases hk : k < a.buckets.size
    · rw [bucket_modifyBucket hk]
      by_cases e : m = k
      · exact .inr ⟨e, if_pos e⟩
      · exact .inl (if_neg e)
    · refine .inl ?_
      rw [Table.bucket, Table.modifyBucket, Array.getElem?_modify]
      by_cases e : k = m
      · rw [if_pos e, ← e, Array.getElem?_eq_none (Nat.le_of_not_lt hk),
          bucket_of_size_le (Nat.le_of_not_lt hk)]
        rfl
      · rw [if_neg e]
        rfl
  refine h.of_parts h.sound (.refl _ _) (by simp [Table.modifyBucket]) (fun m => ?_) (fun m j hj => ?_)
    ⟨rfl, rfl⟩
  · rcases bucket m with e | ⟨rfl, e⟩
    · rw [e]
    · rw [e, chain]
  · rcases bucket m with e | ⟨rfl, e⟩
    · exact h.cursor m j (e ▸ hj)
    · exact cursor j (e ▸ hj)

/-- The chain of one bucket, the links of its segments and the counters change. -/
theorem relist (h : a.Strung seqs loose) (hk : k < a.buckets.size) {touched s : List Slot}
    {f : Bucket → Bucket} (buckets : b.buckets = a.buckets.modify k f)
    (rel : Arena.Relinked touched a.segments b.segments)
    (family : Chain.Family (Function.update a.chains k (f (a.bucket k)).chain) b.segments
      (Function.update seqs k s))
    (perm : ∀ j, some j ≠ loose → (j ∈ s ↔ j ∈ seqs k))
    (cursor : ∀ j, (f (a.bucket k)).cursor = some j → j ∈ s)
    (counted : Counted b.inUse b.training (Function.update seqs k s)) :
    b.Strung (Function.update seqs k s) loose := by
  have bucket : ∀ m, b.bucket m = if m = k then f (a.bucket k) else a.bucket m := by
    intro m
    rw [← bucket_modifyBucket hk, Table.bucket, Table.bucket, buckets]
    rfl
  refine ⟨rel.sound h.sound, by simp [buckets, h.size_buckets], ?_, fun m j hj => ?_,
    fun m j hj => ?_, counted⟩
  · have e : b.chains = Function.update a.chains k (f (a.bucket k)).chain := funext fun m => by
      rw [chains, bucket, Function.update_apply]
      split <;> rfl
    rw [e]
    exact family
  · have home : (b.get? j).map Segment.bucket = (a.get? j).map Segment.bucket :=
      rel.same.of_comp Segment.bucket (fun _ => rfl) j
    rw [← Option.map_eq_some_iff, home, Option.map_eq_some_iff, ← h.mem m j hj, Function.update_apply]
    split
    · rename_i e
      rw [e]
      exact perm j hj
    · rfl
  · rw [bucket] at hj
    rw [Function.update_apply]
    split at hj
    · rename_i e
      rw [if_pos e]
      exact cursor j hj
    · rename_i e
      rw [if_neg e]
      exact h.cursor m j hj

theorem yields_unlink (h : a.Strung seqs (some i)) (hs : a.get? i = some s) (hi : i ∈ seqs s.bucket) :
    Yields (a.unlink i) fun b =>
      b.Strung (Function.update seqs s.bucket ((seqs s.bucket).erase i)) (some i) ∧
      (∀ k, i ∉ Function.update seqs s.bucket ((seqs s.bucket).erase i) k) ∧
      a.segments.Same bare b.segments ∧ b.ranking = a.ranking ∧ b.segmentSize = a.segmentSize := by
  obtain ⟨chain, segments, e, rel, family⟩ := h.family.unlink hi
  have nodup := (h.family.represents s.bucket).nodup
  have next : ∀ j, s.links.next = some j → j ∈ (seqs s.bucket).erase i := by
    intro j hj
    have following : a.segments.nextOf i = some j := by
      rw [Arena.nextOf, Arena.links?, show a.segments.get? i = some s from hs]
      exact hj
    obtain ⟨mem, apart⟩ := (h.family.represents s.bucket).nextOf_mem hi following
    exact (List.mem_erase_of_ne apart).mpr mem
  have shorter : ((seqs s.bucket).erase i).length + 1 = (seqs s.bucket).length := by
    have pos := List.length_pos_of_mem hi
    rw [List.length_erase_of_mem hi]
    omega
  unfold Table.unlink
  rw [hs]
  dsimp only
  rw [show (a.bucket s.bucket).chain.unlink a.segments i = _ from e]
  rw [ok_bind]
  dsimp only
  generalize hf : (fun b : Bucket => (⟨chain, if b.cursor = some i then s.links.next else b.cursor,
    forget i b.rankedHead, forget i b.rankedTail⟩ : Bucket)) = f
  obtain ⟨inUse, training, counts, counted⟩ :=
    Counted.countOut (a := { a with segments }.modifyBucket s.bucket f) h.counted (h.le_of_mem hi) shorter
  rw [counts]
  have chained : (f (a.bucket s.bucket)).chain = chain := by rw [← hf]
  have moved : (f (a.bucket s.bucket)).cursor =
      if (a.bucket s.bucket).cursor = some i then s.links.next else (a.bucket s.bucket).cursor := by
    rw [← hf]
  rw [← chained] at family
  refine yields_pure ⟨?_, fun m => ?_, rel.same, rfl, rfl⟩
  · refine h.relist (h.lt_of_mem hi) rfl rel family (fun j hj => ?_) (fun j hj => ?_) counted
    · have hji : j ≠ i := fun same => hj (congrArg some same)
      exact List.mem_erase_of_ne hji
    · rw [moved] at hj
      split at hj
      · exact next j hj
      · rename_i other
        have hji : j ≠ i := fun same => other (same ▸ hj)
        exact (List.mem_erase_of_ne hji).mpr (h.cursor s.bucket j hj)
  · rw [Function.update_apply]
    split
    · exact nodup.not_mem_erase
    · rename_i other
      exact h.family.own hi m other

theorem fasten_at {l : List Slot} (h : b.Strung (Function.update seqs k l) (some i))
    (out : ∀ m, i ∉ seqs m) (hi : i ∈ l) (hs : b.get? i = some s) (home : s.bucket = k) :
    b.Strung (Function.update seqs k l) none := by
  refine h.fasten fun m => ?_
  have place : (∃ u, b.get? i = some u ∧ u.bucket = m) ↔ m = k := by
    rw [hs]
    constructor
    · intro found
      obtain ⟨u, hu, rfl⟩ := found
      cases hu
      exact home
    · intro e
      exact ⟨s, rfl, home.trans e.symm⟩
  rw [place, Function.update_apply]
  by_cases e : m = k
  · rw [if_pos e]
    exact iff_of_true hi e
  · rw [if_neg e]
    exact iff_of_false (out m) e

theorem append (h : a.Strung seqs (some i)) (out : ∀ m, i ∉ seqs m) (hs : a.get? i = some s)
    (hk : s.bucket < a.buckets.size) :
    (a.append i).Strung (Function.update seqs s.bucket (seqs s.bucket ++ [i])) none ∧
      a.segments.Same bare (a.append i).segments ∧ (a.append i).ranking = a.ranking ∧
      (a.append i).segmentSize = a.segmentSize := by
  have present : a.segments.contains i = true := by
    rw [Arena.contains, show a.segments.get? i = some s from hs]
    rfl
  have family := h.family.pushBack (k := s.bucket) out present
  have rel := Chain.relinked_pushBack (i := i) (h.family.represents s.bucket)
  unfold Table.append
  rw [hs]
  dsimp only
  rw [show (a.bucket s.bucket).chain = a.chains s.bucket from rfl]
  generalize (a.chains s.bucket).pushBack a.segments i = placed at family rel ⊢
  obtain ⟨chain, segments⟩ := placed
  dsimp only
  have le : s.bucket ≤ quarantine := by
    rw [h.size_buckets] at hk
    exact Nat.le_of_lt_succ hk
  obtain ⟨inUse, training, counts, counted⟩ := Counted.countIn
    (a := { a with segments }.modifyBucket s.bucket fun b => { b with chain })
    (l := seqs s.bucket ++ [i]) h.counted le (by simp)
  rw [counts]
  obtain ⟨u, hu, home⟩ := (rel.same.of_comp (g := Segment.bucket) Segment.bucket fun _ => rfl).get? hs
  refine ⟨fasten_at ?_ out (by simp) hu home, rel.same, rfl, rfl⟩
  refine h.relist (f := fun b => { b with chain }) hk rfl rel family (fun j hj => ?_) (fun j hj => ?_) counted
  · have hji : j ≠ i := fun same => hj (congrArg some same)
    simp [hji]
  · exact List.mem_append_left _ (h.cursor s.bucket j hj)

theorem insertBefore (h : a.Strung seqs (some i)) (out : ∀ m, i ∉ seqs m) (hs : a.get? i = some s)
    {l r : List Slot} {anchor : Slot} (at_anchor : seqs s.bucket = l ++ anchor :: r) :
    (a.insertBefore s.bucket anchor i).Strung
        (Function.update seqs s.bucket (l ++ i :: anchor :: r)) none ∧
      a.segments.Same bare (a.insertBefore s.bucket anchor i).segments ∧
      (a.insertBefore s.bucket anchor i).ranking = a.ranking ∧
      (a.insertBefore s.bucket anchor i).segmentSize = a.segmentSize := by
  have present : a.segments.contains i = true := by
    rw [Arena.contains, show a.segments.get? i = some s from hs]
    rfl
  have mem : anchor ∈ seqs s.bucket := by simp [at_anchor]
  have hk := h.lt_of_mem mem
  obtain ⟨u, hu⟩ := h.exists_get? mem
  have family := h.family.insertBefore (k := s.bucket) at_anchor out present
  have rel := Chain.relinked_insertBefore (i := i) (at_anchor ▸ h.family.represents s.bucket)
  unfold Table.insertBefore
  rw [hu]
  dsimp only
  rw [show (a.bucket s.bucket).chain = a.chains s.bucket from rfl]
  generalize (a.chains s.bucket).insertBefore a.segments anchor i = placed at family rel ⊢
  obtain ⟨chain, segments⟩ := placed
  dsimp only
  obtain ⟨inUse, training, counts, counted⟩ := Counted.countIn
    (a := { a with segments }.modifyBucket s.bucket fun b => { b with chain })
    (l := l ++ i :: anchor :: r) h.counted (h.le_of_mem mem) (by simp [at_anchor]; omega)
  rw [counts]
  obtain ⟨u, hu, home⟩ := (rel.same.of_comp (g := Segment.bucket) Segment.bucket fun _ => rfl).get? hs
  refine ⟨fasten_at ?_ out (by simp) hu home, rel.same, rfl, rfl⟩
  refine h.relist (f := fun b => { b with chain }) hk rfl rel family (fun j hj => ?_) (fun j hj => ?_) counted
  · have hji : j ≠ i := fun same => hj (congrArg some same)
    simp [at_anchor, hji]
  · have := h.cursor s.bucket j hj
    rw [at_anchor] at this
    simp only [List.mem_append, List.mem_cons] at this ⊢
    tauto

theorem settles_allocate (h : a.Strung seqs none) (bucket : Nat) (time now : Int) :
    Settles t (a.allocate bucket time now) fun p => p.2.Strung seqs (some p.1) ∧
      (∀ k, p.1 ∉ seqs k) ∧ a.get? p.1 = none ∧
      p.2.get? p.1 = some (.fresh a.nextId bucket time now) ∧
      (∀ j, j ≠ p.1 → p.2.get? j = a.get? j) ∧
      p.2.segments.size = a.segments.size + 1 ∧ p.2.buckets = a.buckets ∧
      p.2.ranking = a.ranking ∧ p.2.segmentSize = a.segmentSize := by
  unfold Table.allocate
  refine settles_bind (settles_addWord _ _) fun nextId _ => ?_
  have vacant := Arena.get?_insert_fst h.sound (.fresh a.nextId bucket time now)
  have get := Arena.get?_insert h.sound (.fresh a.nextId bucket time now)
  have sound := h.sound.insert (.fresh a.nextId bucket time now)
  have size := a.segments.size_insert (.fresh a.nextId bucket time now)
  generalize a.segments.insert (.fresh a.nextId bucket time now) = p at vacant get sound size ⊢
  obtain ⟨i, segments⟩ := p
  dsimp only at vacant get sound size ⊢
  have out : ∀ k, i ∉ seqs k := by
    intro k hi
    obtain ⟨s, hs⟩ := h.exists_get? hi
    rw [show a.segments.get? i = some s from hs] at vacant
    cases vacant
  have other : ∀ j, j ≠ i → segments.get? j = a.segments.get? j := fun j hj => by
    rw [get, if_neg hj]
  refine settles_pure ⟨⟨sound, h.size_buckets, ?_, fun k j hj => ?_, h.cursor, h.counted⟩, out, vacant,
    by rw [Table.get?, get, if_pos rfl], other, size, rfl, rfl, rfl⟩
  · refine h.family.congr fun k j hj => ?_
    exact congrArg (Option.map Linked.links) (other j fun e => out k (e ▸ hj))
  · rw [h.mem_iff k j, Table.get?, Table.get?, other j fun e => hj (congrArg some e)]

theorem remove (h : a.Strung seqs (some i)) (out : ∀ k, i ∉ seqs k) :
    Strung { a with segments := (a.segments.remove i).2 } seqs none := by
  have get := a.segments.get?_remove i
  have other : ∀ j, j ≠ i → (a.segments.remove i).2.get? j = a.segments.get? j := fun j hj => by
    rw [get, if_neg (Ne.symm hj)]
  have gone : (a.segments.remove i).2.get? i = none := by rw [get, if_pos rfl]
  have strung : Strung { a with segments := (a.segments.remove i).2 } seqs (some i) := by
    refine ⟨h.sound.remove i, h.size_buckets, h.family.congr fun k j hj => ?_, ?_,
      h.cursor, h.counted⟩
    · exact congrArg (Option.map Linked.links) (other j fun e => out k (e ▸ hj))
    · intro k j hj
      rw [h.mem k j hj, Table.get?, Table.get?, other j fun e => hj (congrArg some e)]
  refine strung.fasten fun k => iff_of_false (out k) ?_
  intro found
  obtain ⟨u, hu, -⟩ := found
  rw [show (a.segments.remove i).2.get? i = some u from hu] at gone
  cases gone

end Strung

/-- What linking, ranking and rating the segments of a table leaves alone. -/
structure Carried (a b : Table) : Prop where
  same : a.segments.Same Segment.cargo b.segments
  segmentSize : b.segmentSize = a.segmentSize
  nextId : b.nextId = a.nextId

namespace Carried
variable {a b c : Table}

theorem refl (a : Table) : Carried a a := ⟨.refl _ _, rfl, rfl⟩

theorem trans (h : Carried a b) (k : Carried b c) : Carried a c :=
  ⟨h.same.trans k.same, k.segmentSize.trans h.segmentSize, k.nextId.trans h.nextId⟩

theorem sample?_eq (h : Carried a b) : b.sample? = a.sample? :=
  funext fun i => sample?_of_cargo (h.same i)

end Carried

namespace Strung
variable {a b : Table} {loose : Option Slot} {i : Slot} {s : Segment}

theorem bucket_lt (h : a.Strung a.chainOf none) (hs : a.get? i = some s) :
    s.bucket ≤ quarantine :=
  h.le_of_mem ((h.mem_iff _ i).mpr ⟨s, hs, rfl⟩)

theorem mem_live_iff (h : a.Strung a.chainOf none) (i : Slot) :
    i ∈ a.live ↔ ∃ s, a.get? i = some s ∧ s.bucket ≠ quarantine := by
  rw [live, List.mem_flatMap]
  constructor
  · intro found
    obtain ⟨k, hk, hi⟩ := found
    obtain ⟨s, hs, home⟩ := (h.mem_iff k i).mp hi
    have : k < quarantine := List.mem_range.mp hk
    exact ⟨s, hs, by omega⟩
  · intro found
    obtain ⟨s, hs, home⟩ := found
    have le := h.bucket_lt hs
    refine ⟨s.bucket, List.mem_range.mpr ?_, (h.mem_iff _ i).mpr ⟨s, hs, rfl⟩⟩
    exact Nat.lt_of_le_of_ne le home

theorem nodup_live (h : a.Strung a.chainOf none) : a.live.Nodup := by
  rw [live, List.nodup_flatMap]
  refine ⟨fun k _ => (h.family.represents k).nodup, ?_⟩
  refine List.nodup_range.imp ?_
  intro k l apart i hk hl
  exact apart (h.family.disjoint k l i hk hl)

theorem length_live (h : a.Strung a.chainOf none) : a.live.length + a.training = a.segments.size := by
  have nodup : (a.live ++ a.chainOf quarantine).Nodup := by
    refine List.nodup_append.mpr ⟨h.nodup_live, (h.family.represents quarantine).nodup, ?_⟩
    rintro i hi j hj rfl
    obtain ⟨s, hs, home⟩ := (h.mem_live_iff i).mp hi
    obtain ⟨u, hu, away⟩ := (h.mem_iff quarantine i).mp hj
    rw [hs] at hu
    cases hu
    exact home away
  have all : ∀ i, i ∈ a.live ++ a.chainOf quarantine ↔ ∃ s, a.segments.get? i = some s := by
    intro i
    rw [List.mem_append, h.mem_live_iff, h.mem_iff quarantine i]
    constructor
    · intro found
      rcases found with ⟨s, hs, -⟩ | ⟨s, hs, -⟩
      · exact ⟨s, hs⟩
      · exact ⟨s, hs⟩
    · intro found
      obtain ⟨s, hs⟩ := found
      by_cases home : s.bucket = quarantine
      · exact .inr ⟨s, hs, home⟩
      · exact .inl ⟨s, hs, home⟩
  rw [← h.sound.length_eq nodup all, List.length_append, h.counted.training]

theorem inUse_eq (h : a.Strung a.chainOf none) : a.inUse = a.live.length := by
  rw [h.counted.inUse, live, List.length_flatMap]
  rfl

theorem inUse_succ (ha : a.Strung a.chainOf none) (hb : b.Strung b.chainOf none) (hi : i ∈ a.live)
    (mem : ∀ j, j ∈ b.live ↔ j ≠ i ∧ j ∈ a.live) : b.inUse + 1 = a.inUse := by
  have perm : b.live.Perm (a.live.erase i) := by
    refine (List.perm_ext_iff_of_nodup hb.nodup_live (ha.nodup_live.erase i)).mpr fun j => ?_
    rw [mem, ha.nodup_live.mem_erase_iff]
  have pos := List.length_pos_of_mem hi
  rw [ha.inUse_eq, hb.inUse_eq, perm.length_eq, List.length_erase_of_mem hi]
  omega

end Strung
end Table
end CacheReplay.GLCache
