import CacheReplay.Proofs.Floating
import CacheReplay.Proofs.GLCache.Endurance
import Mathlib.Data.Prod.Lex

set_option autoImplicit false

namespace CacheReplay.GLCache
open Regression

def Segment.standing (s : Segment) : ℕ ×ₗ ℤ ×ₗ ℤ :=
  toLex (Floating.orderKey s.utility, toLex (s.createTime, s.createNow))

theorem Segment.ranksBefore_iff {s u : Segment} : s.ranksBefore u = true ↔ s.standing ≤ u.standing := by
  simp only [ranksBefore, decide_eq_true_iff, standing, Prod.Lex.toLex_le_toLex]

/-- What ranks later is not less useful, except that no order is between numbers and what is none. -/
theorem Segment.not_lt_of_standing_le {s u : Segment} (h : s.standing ≤ u.standing) :
    ¬u.utility < s.utility := by
  apply Floating.not_lt_of_totalLE
  rw [Floating.totalLE, decide_eq_true_iff]
  rcases Prod.Lex.toLex_le_toLex.mp h with less | same
  · exact Nat.le_of_lt less
  · exact Nat.le_of_eq same.1

def Segment.unrated (s : Segment) : Segment := { s with utility := 0, rank := none, nextRanked := none }

def Bucket.unranked (b : Bucket) : Bucket := { b with rankedHead := none, rankedTail := none }

namespace Table

/-- From a start on, each segment of a list names the next one, and the last one none. -/
inductive Thread (a : Table) : Option Slot → List Slot → Prop where
  | nil : Thread a none []
  | cons {i : Slot} {s : Segment} {rest : List Slot} (hs : a.get? i = some s)
      (next : Thread a s.nextRanked rest) : Thread a (some i) (i :: rest)

namespace Thread
variable {a b : Table} {start : Option Slot} {l : List Slot}

theorem start_eq (h : a.Thread start l) : start = l.head? := by
  cases h with
  | nil => rfl
  | cons => rfl

theorem congr (h : a.Thread start l) (same : ∀ i ∈ l, b.get? i = a.get? i) : b.Thread start l := by
  induction h with
  | nil => exact .nil
  | cons hs _ ih =>
    refine .cons ((same _ List.mem_cons_self).trans hs) (ih fun i hi => ?_)
    exact same i (List.mem_cons_of_mem _ hi)

theorem concat (h : a.Thread start l) {i : Slot} (nodup : l.Nodup)
    (kept : ∀ j ∈ l, l.getLast? ≠ some j → b.get? j = a.get? j)
    (linked : ∀ j, l.getLast? = some j → ∃ s, b.get? j = some s ∧ s.nextRanked = some i)
    (last : ∃ s, b.get? i = some s ∧ s.nextRanked = none) :
    b.Thread (start.or (some i)) (l ++ [i]) := by
  have single : b.Thread (some i) [i] := by
    obtain ⟨s, hs, none⟩ := last
    exact .cons hs (none ▸ .nil)
  induction h with
  | nil => exact single
  | @cons m s rest hs next ih =>
    cases rest with
    | nil =>
      obtain ⟨u, hu, named⟩ := linked m rfl
      exact .cons hu (named ▸ single)
    | cons p rest =>
      have apart := (List.nodup_cons.mp nodup).1
      have inner : (m :: p :: rest).getLast? = (p :: rest).getLast? := List.getLast?_cons_cons
      have hm : b.get? m = some s := by
        refine (kept m List.mem_cons_self fun e => apart ?_).trans hs
        exact List.mem_of_getLast? (inner ▸ e)
      have rest' := ih (List.nodup_cons.mp nodup).2
        (fun j hj other => kept j (List.mem_cons_of_mem m hj) (inner ▸ other))
        fun j e => linked j (inner ▸ e)
      have named : s.nextRanked.or (some i) = s.nextRanked := by
        rw [next.start_eq]
        rfl
      exact .cons hm (named ▸ rest')

end Thread

/-- What is ranked of each live bucket is threaded from its head to its tail. -/
structure Threaded (a : Table) (seqs : Nat → List Slot) (done : List Slot) : Prop where
  thread : ∀ k < liveBuckets, a.Thread (a.bucket k).rankedHead (done.filter (· ∈ seqs k))
  tail : ∀ k < liveBuckets, (a.bucket k).rankedTail = (done.filter (· ∈ seqs k)).getLast?

theorem threaded_unthreaded (a : Table) (order : List Slot) (seqs : Nat → List Slot) :
    (a.unthreaded order).Threaded seqs [] := by
  constructor
  · intro k hk
    rw [bucket_unthreaded, if_pos hk]
    exact .nil
  · intro k hk
    rw [bucket_unthreaded, if_pos hk]
    rfl

section
variable {a : Table} {seqs : Nat → List Slot} {done : List Slot} {i : Slot} {s : Segment}

/-- The thread of the bucket grows by the segment, and no other thread meets it. -/
theorem Threaded.rankLast (h : a.Threaded seqs done) (strung : a.Strung seqs none)
    (nodup : (done ++ [i]).Nodup) (hs : a.get? i = some s) (hk : s.bucket < liveBuckets) (rank : Nat) :
    (a.rankLast rank i).Threaded seqs (done ++ [i]) := by
  have size : s.bucket < a.buckets.size := by
    rw [strung.size_buckets]
    omega
  have get := get?_rankLast hs rank
  have bucket := bucket_rankLast hs size rank
  have home : ∀ k, i ∈ seqs k ↔ s.bucket = k := by
    intro k
    rw [strung.mem_iff k i, hs]
    simp
  have apart : ∀ j ∈ done, i ≠ j := by
    rintro j hj rfl
    exact (List.nodup_append.mp nodup).2.2 i hj i List.mem_cons_self rfl
  have tail := h.tail s.bucket hk
  have tail_mem : ∀ j, (a.bucket s.bucket).rankedTail = some j → j ∈ done ∧ j ∈ seqs s.bucket := by
    intro j hj
    rw [tail] at hj
    have mem := List.mem_filter.mp (List.mem_of_getLast? hj)
    exact ⟨mem.1, of_decide_eq_true mem.2⟩
  have self : (a.rankLast rank i).get? i = some { s with rank := some rank, nextRanked := none } := by
    rw [get, if_pos rfl, Option.map_some, if_neg fun e => apart i (tail_mem i e).1 rfl]
  have keep : ∀ j ∈ done, (a.bucket s.bucket).rankedTail ≠ some j →
      (a.rankLast rank i).get? j = a.get? j := by
    intro j hj inner
    rw [get, if_neg (apart j hj)]
    simp [inner]
  constructor
  · intro k hk'
    have before := h.thread k hk'
    rw [bucket, List.filter_append]
    by_cases e : k = s.bucket
    · subst e
      have own : [i].filter (· ∈ seqs s.bucket) = [i] := by simp [home]
      have head : (if (a.bucket s.bucket).rankedTail.isSome then (a.bucket s.bucket).rankedHead
          else some i) = (a.bucket s.bucket).rankedHead.or (some i) := by
        rw [tail, before.start_eq]
        cases done.filter (· ∈ seqs s.bucket) with
        | nil => rfl
        | cons j rest => simp [List.getLast?_cons]
      rw [if_pos rfl, own, head]
      refine before.concat ((List.nodup_append.mp nodup).1.filter _) (fun j hj inner => ?_) (fun j hj => ?_)
        ⟨_, self, rfl⟩
      · exact keep j (List.mem_filter.mp hj).1 (tail ▸ inner)
      · rw [← tail] at hj
        obtain ⟨u, hu⟩ := strung.exists_get? (tail_mem j hj).2
        refine ⟨{ u with nextRanked := some i }, ?_, rfl⟩
        rw [get, if_neg (apart j (tail_mem j hj).1), hu, Option.map_some, if_pos hj]
    · have other : [i].filter (· ∈ seqs k) = [] := by simp [home, Ne.symm e]
      rw [if_neg e, other, List.append_nil]
      refine before.congr fun j hj => ?_
      have mem := List.mem_filter.mp hj
      refine keep j mem.1 fun last => e ?_
      exact strung.family.disjoint k s.bucket j (of_decide_eq_true mem.2) (tail_mem j last).2
  · intro k hk'
    rw [bucket, List.filter_append]
    by_cases e : k = s.bucket
    · subst e
      have own : [i].filter (· ∈ seqs s.bucket) = [i] := by simp [home]
      rw [if_pos rfl, own, List.getLast?_concat]
    · have other : [i].filter (· ∈ seqs k) = [] := by simp [home, Ne.symm e]
      rw [if_neg e, other, List.append_nil]
      exact h.tail k hk'

theorem Threaded.rankFrom {rest : List Slot} (h : a.Threaded seqs done) (strung : a.Strung seqs none)
    (nodup : (done ++ rest).Nodup) (live : ∀ i ∈ rest, ∃ s, a.get? i = some s ∧ s.bucket < liveBuckets)
    (rank : Nat) : (a.rankFrom rank rest).Threaded seqs (done ++ rest) := by
  induction rest generalizing a done rank with
  | nil =>
    rw [List.append_nil]
    exact h
  | cons i rest ih =>
    obtain ⟨s, hs, hk⟩ := live i List.mem_cons_self
    have split : done ++ i :: rest = (done ++ [i]) ++ rest := by simp
    rw [split] at nodup ⊢
    have step := h.rankLast strung (List.nodup_append.mp nodup).1 hs hk rank
    exact ih step (strung.rankLast rank i) nodup
      (fun j hj => home_rankLast (live j (List.mem_cons_of_mem i hj))) (rank + 1)

end

theorem unranked_rankLast (a : Table) (rank : Nat) (i : Slot) (k : Nat) :
    ((a.rankLast rank i).bucket k).unranked = (a.bucket k).unranked := by
  have threads : ∀ (b : Table) (m : Nat) (f : Bucket → Bucket), (∀ d, (f d).unranked = d.unranked) →
      ((b.modifyBucket m f).bucket k).unranked = (b.bucket k).unranked := by
    intro b m f hf
    simp only [bucket, modifyBucket, Array.getElem?_modify]
    split
    · cases b.buckets[k]? with
      | none => rfl
      | some d => exact hf d
    · rfl
  unfold rankLast
  cases a.get? i with
  | none => rfl
  | some s =>
    dsimp only
    split
    · exact threads (Table.modify _ _ _) s.bucket _ fun _ => rfl
    · exact threads (a.modify i _) s.bucket _ fun _ => rfl

theorem unranked_rankFrom (a : Table) (rank : Nat) (order : List Slot) (k : Nat) :
    ((a.rankFrom rank order).bucket k).unranked = (a.bucket k).unranked := by
  induction order generalizing a rank with
  | nil => rfl
  | cons i rest ih => exact (ih (a.rankLast rank i) (rank + 1)).trans (a.unranked_rankLast rank i k)

theorem unranked_unthreaded (a : Table) (order : List Slot) (k : Nat) :
    ((a.unthreaded order).bucket k).unranked = (a.bucket k).unranked := by
  rw [bucket_unthreaded]
  split <;> rfl

/-- The order of a ranking goes up in standing. -/
theorem pairwise_rankingOrder (a : Table) : a.rankingOrder.Pairwise fun i j =>
    ∃ s u, a.get? i = some s ∧ a.get? j = some u ∧ s.standing ≤ u.standing := by
  unfold rankingOrder
  dsimp only
  generalize hE : a.live.filterMap (fun i => (a.get? i).map fun s => (i, s)) = entries
  have named : ∀ e ∈ entries, a.get? e.1 = some e.2 := by
    rw [← hE]
    intro e he
    obtain ⟨i, -, found⟩ := List.mem_filterMap.mp he
    obtain ⟨s, hs, rfl⟩ := Option.map_eq_some_iff.mp found
    exact hs
  have sorted : (entries.mergeSort fun x y => x.2.ranksBefore y.2).Pairwise fun x y =>
      x.2.ranksBefore y.2 = true :=
    List.pairwise_mergeSort (fun x y z => Segment.ranksBefore_trans x.2 y.2 z.2)
      (fun x y => Segment.ranksBefore_total x.2 y.2) entries
  rw [List.pairwise_map]
  refine sorted.imp_of_mem fun {x y} hx hy before => ?_
  exact ⟨x.2, y.2, named x (List.mem_mergeSort.mp hx), named y (List.mem_mergeSort.mp hy),
    Segment.ranksBefore_iff.mp before⟩

/-- A table `b` that was ranked anew, given the table before and the order. -/
structure Reordered (a b : Table) (order : List Slot) : Prop where
  /-- Every live segment has one place. -/
  members : ∀ i, i ∈ order ↔ ∃ s, a.get? i = some s ∧ s.bucket ≠ quarantine
  nodup : order.Nodup
  length : order.length = a.inUse
  sorted : order.Pairwise fun i j => ∃ s u, b.get? i = some s ∧ b.get? j = some u ∧
    s.standing ≤ u.standing ∧ ¬u.utility < s.utility
  /-- The slots are the order and, behind it, empty ones. -/
  slots : ∃ m, b.ranking.slots.toList = order.map some ++ List.replicate m none
  ranks : ∀ (p : Nat) i, order[p]? = some i → ∃ s, b.get? i = some s ∧ s.rank = some p
  quarantined : ∀ i s, b.get? i = some s → s.bucket = quarantine → s.rank = none
  thread : ∀ k < liveBuckets, b.Thread (b.bucket k).rankedHead (order.filter (· ∈ a.chainOf k)) ∧
    (order.filter (· ∈ a.chainOf k)).Perm (a.chainOf k)
  tail : ∀ k < liveBuckets, (b.bucket k).rankedTail = (order.filter (· ∈ a.chainOf k)).getLast?
  position : b.ranking.position = some 0
  count : b.ranking.count = order.length
  chains : b.chainOf = a.chainOf
  buckets : ∀ k, (b.bucket k).unranked = (a.bucket k).unranked
  segments : a.segments.Same Segment.unranked b.segments
  counters : b.inUse = a.inUse ∧ b.training = a.training ∧ b.nextId = a.nextId ∧
    b.segmentSize = a.segmentSize

theorem rankingOrder_filter_perm {a : Table} (h : a.Strung a.chainOf none) {k : Nat}
    (hk : k < liveBuckets) : (a.rankingOrder.filter (· ∈ a.chainOf k)).Perm (a.chainOf k) := by
  refine (List.perm_ext_iff_of_nodup (h.nodup_rankingOrder.filter _)
    (h.family.represents k).nodup).mpr fun i => ?_
  rw [List.mem_filter, decide_eq_true_iff, mem_rankingOrder_iff h]
  refine and_iff_right_of_imp fun hi => ?_
  obtain ⟨s, hs, home⟩ := (h.mem_iff k i).mp hi
  exact ⟨s, hs, by rw [home]; exact Nat.ne_of_lt hk⟩

theorem rerank_reordered {a : Table} (h : a.Strung a.chainOf none)
    (unranked : ∀ i s, a.get? i = some s → s.rank.isSome → s.bucket ≠ quarantine) :
    a.Reordered a.rerank a.rankingOrder := by
  have nodup : ([] ++ a.rankingOrder).Nodup := h.nodup_rankingOrder
  have start := h.unthreaded a.rankingOrder
  obtain ⟨done, strung, same, keep, ranking, size⟩ := (rankedUpTo_unthreaded a a.rankingOrder).rankFrom
    start nodup fun i hi => h.home_of_ranked hi
  have threaded := (threaded_unthreaded a a.rankingOrder a.chainOf).rankFrom start nodup
    (fun i hi => h.home_of_ranked hi) 0
  rw [List.length_nil, ← rerank_eq] at done strung same keep ranking size
  rw [← rerank_eq] at threaded
  rw [List.nil_append] at done threaded
  obtain ⟨-, ranked, carried⟩ := rerank_spec h unranked
  have chains : a.rerank.chainOf = a.chainOf := funext strung.chainOf_eq
  constructor
  case members => exact mem_rankingOrder_iff h
  case nodup => exact nodup
  case length =>
    rw [a.rankingOrder_perm.length_eq, h.inUse_eq, List.filter_eq_self.mpr fun i hi => ?_]
    obtain ⟨s, hs, -⟩ := (h.mem_live_iff i).mp hi
    rw [hs]
    rfl
  case sorted =>
    have standings := same.of_comp (g := Segment.standing) Segment.standing fun _ => rfl
    refine a.pairwise_rankingOrder.imp fun {i j} before => ?_
    obtain ⟨s, u, hs, hu, le⟩ := before
    obtain ⟨s', hs', first⟩ := standings.get? hs
    obtain ⟨u', hu', second⟩ := standings.get? hu
    have le' : s'.standing ≤ u'.standing := by
      rw [first, second]
      exact le
    exact ⟨s', u', hs', hu', le', Segment.not_lt_of_standing_le le'⟩
  case slots =>
    refine ⟨Ranking.room a.ranking.slots.size a.rankingOrder.length - a.rankingOrder.length, ?_⟩
    rw [ranking]
    simp only [unthreaded, Array.toList_append, Array.toList_replicate]
  case ranks =>
    intro p i hi
    obtain ⟨s, hs, rank, -⟩ := done.ranks p i hi
    exact ⟨s, hs, rank⟩
  case quarantined =>
    intro i s hs home
    by_contra some
    exact ranked.live i s hs (Option.isSome_iff_ne_none.mpr some) home
  case thread => exact fun k hk => ⟨threaded.thread k hk, rankingOrder_filter_perm h hk⟩
  case tail => exact threaded.tail
  case position =>
    rw [ranking]
    rfl
  case count =>
    rw [ranking]
    rfl
  case chains => exact chains
  case buckets =>
    intro k
    rw [rerank_eq, unranked_rankFrom, unranked_unthreaded]
  case segments => exact same
  case counters =>
    have live : a.rerank.live = a.live := by rw [Table.live, Table.live, chains]
    have counted := strung.listed
    refine ⟨?_, ?_, carried.nextId, carried.segmentSize⟩
    · rw [counted.inUse_eq, h.inUse_eq, live]
    · rw [counted.counted.training, h.counted.training, chains]

/-- The same segments in the same chains, whatever rates them and whatever rankings have left behind. -/
structure Rerated (a b : Table) : Prop where
  segments : a.segments.Same Segment.unrated b.segments
  sound : b.segments.Sound
  size : b.buckets.size = a.buckets.size
  buckets : ∀ k, (b.bucket k).unranked = (a.bucket k).unranked
  counters : b.inUse = a.inUse ∧ b.training = a.training
  quarantined : ∀ i s, b.get? i = some s → s.rank.isSome → s.bucket ≠ quarantine

namespace Rerated
variable {a b : Table} {seqs : Nat → List Slot}

theorem refl (strung : a.Strung seqs none) (ranked : a.Ranked) : a.Rerated a :=
  ⟨.refl _ _, strung.sound, rfl, fun _ => rfl, ⟨rfl, rfl⟩, ranked.live⟩

theorem strung (h : a.Rerated b) (strung : a.Strung seqs none) : b.Strung seqs none := by
  have chain : ∀ k, (b.bucket k).chain = (a.bucket k).chain := fun k =>
    show (b.bucket k).unranked.chain = _ by rw [h.buckets]; rfl
  have cursor : ∀ k, (b.bucket k).cursor = (a.bucket k).cursor := fun k =>
    show (b.bucket k).unranked.cursor = _ by rw [h.buckets]; rfl
  exact strung.of_parts h.sound (h.segments.of_comp (fun s => (s.links, s.bucket)) fun _ => rfl) h.size
    chain (fun k i hi => strung.cursor k i (cursor k ▸ hi)) h.counters

theorem growRanking (h : a.Rerated b) : a.Rerated b.growRanking.2 := by
  unfold Table.growRanking
  split
  · exact ⟨h.segments, h.sound, h.size, h.buckets, h.counters, h.quarantined⟩
  · exact h

theorem modify_utility (h : a.Rerated b) (i : Slot) (utility : Float) :
    a.Rerated (b.modify i fun s => { s with utility }) where
  segments := h.segments.trans (Arena.same_modify _ _ fun _ _ => rfl)
  sound := h.sound.modify i _
  size := h.size
  buckets := h.buckets
  counters := h.counters
  quarantined j s hs := by
    rw [get?_modify] at hs
    split at hs
    · obtain ⟨u, hu, rfl⟩ := Option.map_eq_some_iff.mp hs
      exact h.quarantined j u hu
    · exact h.quarantined j s hs

theorem reordered (h : a.Rerated b) (strung : a.Strung seqs none) : ∃ order, b.Reordered b.rerank order :=
  ⟨_, rerank_reordered (h.strung strung).listed h.quarantined⟩

end Rerated
end Table

namespace Cache
open EvictionPolicy
variable {μ : Type} [Regressor μ] {t : Tolerance}

/-- Whether a choice by utility ranks anew first: for want of room, or because the ranking is due. -/
def ranksAnew (c : Cache μ) : Bool :=
  c.contents.table.growRanking.1 || c.contents.table.growRanking.2.rankingDue c.config.rankInterval

theorem settles_rankedTable_cases (c : Cache μ) {seqs : Nat → List Slot}
    (strung : c.contents.table.Strung seqs none) (ranked : c.contents.table.Ranked) :
    Settles t c.rankedTable fun b =>
      (c.ranksAnew = false ∧ b = c.contents.table ∧
        c.contents.table.rankingDue c.config.rankInterval = false) ∨
      c.ranksAnew = true ∧ ∃ d, c.contents.table.Rerated d ∧ b = d.rerank := by
  have self := Table.Rerated.refl strung ranked
  have appraised : ∀ d : Cache μ, c.contents.table.Rerated d.contents.table →
      Settles t d.appraise fun b => c.contents.table.Rerated b := by
    intro d rerated
    unfold appraise
    refine settles_bind (settles_mapM_true fun i _ => ?_) fun utilities _ => ?_
    · cases d.contents.table.get? i with
      | none => exact settles_pure trivial
      | some s => exact settles_bind (d.settles_utilityOf i s) fun _ _ => settles_pure trivial
    · exact settles_pure (List.foldlRecOn (motive := c.contents.table.Rerated) utilities _ rerated
        fun _ before u _ => before.modify_utility u.1 u.2)
  unfold rankedTable
  dsimp only
  split
  · rename_i anew
    refine settles_bind (appraised _ self.growRanking) fun b rerated => ?_
    exact settles_pure (.inr ⟨anew, b, rerated, rfl⟩)
  · rename_i kept
    have kept := Bool.eq_false_iff.mpr kept
    obtain ⟨small, fresh⟩ := Bool.or_eq_false_iff.mp kept
    have same : c.contents.table.growRanking.2 = c.contents.table := by
      unfold Table.growRanking at small ⊢
      split
      · rename_i grown
        rw [if_pos grown] at small
        cases small
      · rfl
    refine settles_pure (.inl ⟨kept, same, ?_⟩)
    rw [same] at fresh
    exact fresh

/-- A ranking pass keeps the ranking or ranks anew, and what is ranked anew is in order. -/
structure Reranks (c : Cache μ) : Prop where
  pass : Settles .arithmetic c.rankedTable fun b =>
    b = c.contents.table ∨ ∃ d, c.contents.table.Rerated d ∧ b = d.rerank
  self : c.contents.table.Rerated c.contents.table
  reordered : ∀ d, c.contents.table.Rerated d → ∃ order, d.Reordered d.rerank order

theorem Sound.reranks {c : Cache μ} (h : c.Sound) : c.Reranks where
  pass := (c.settles_rankedTable_cases h.contents.strung h.contents.ranked).mono fun _ ranked =>
    ranked.imp (fun kept => kept.2.1) And.right
  self := .refl h.contents.strung h.contents.ranked
  reordered _ rerated := rerated.reordered h.contents.strung

variable {config : Config} (capacity overhead : Nat) (model : μ)

/--
Whatever a run has done before, also while it makes room for an object, and whatever the segments
are rated then and were ranked before: a new ranking lists every live segment once, by utility and
then by age, gives each its position as its rank, and threads the segments of each bucket in this
order; it leaves no rank elsewhere and changes nothing else.
-/
theorem run_reranks (accepted : config.validate = .ok ()) (ops : List Operation) :
    Settles (.ofModel μ) (run (ofConfig capacity overhead config model) ops) fun c =>
      c.Reranks ∧ ∀ (req : Request) (evictions : Nat),
        Settles (.ofModel μ) (makingRoom c req evictions) fun d => d.Reranks :=
  dependable_ofModel.settles_throughout (fun _ h => h.reranks) _ ops
    (sound_ofConfig capacity overhead model accepted)

theorem run_reranks_oracle :
    Config.validate { Config.defaults with
      signal := .logOracle, buckets := .bySize, segmentSize := 4, retain := 4 } = .ok () ∧
    Yields (run (ofConfig 40 0 { Config.defaults with
        signal := .logOracle, buckets := .bySize, segmentSize := 4, retain := 4 }
      (Boosted.unfitted .defaults)) [.get (.ofId 1 10 0), .get (.ofId 2 20 1), .evict (.ofId 3 20 2)])
      fun c => c.Reranks ∧ ∀ (req : Request) (evictions : Nat),
        Settles (.ofModel Boosted) (makingRoom c req evictions) fun d => d.Reranks :=
  ⟨rfl, returns rfl (by decide) (run_reranks 40 0 _ rfl _)⟩

end Cache
end CacheReplay.GLCache
