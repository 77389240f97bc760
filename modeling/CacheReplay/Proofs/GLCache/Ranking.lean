import CacheReplay.GLCache.Ranking
import CacheReplay.Proofs.GLCache.Table

set_option autoImplicit false

namespace CacheReplay.GLCache.Table

structure Ranked (a : Table) : Prop where
  slots : ∀ (p : Nat) i, a.ranking.slots[p]? = some (some i) → ∃ s, a.get? i = some s ∧ s.rank = some p
  live : ∀ i s, a.get? i = some s → s.rank.isSome → s.bucket ≠ quarantine
  next : ∀ i s j u p q, a.get? i = some s → s.rank = some p → s.nextRanked = some j →
    a.get? j = some u → u.rank = some q → p < q

theorem ranked_empty (segmentSize : Nat) : (empty segmentSize).Ranked where
  slots p i h := by simp [empty, Ranking.empty] at h
  live i s h := by simp [empty, get?, Arena.get?_empty] at h
  next i s j u p q h := by simp [empty, get?, Arena.get?_empty] at h

theorem Ranked.of_fewer {a b : Table} (h : a.Ranked)
    (slots : ∀ (p : Nat) i, b.ranking.slots[p]? = some (some i) →
      ∃ s, b.get? i = some s ∧ s.rank = some p)
    (old : ∀ i u, b.get? i = some u → u.rank.isSome → ∃ s, a.get? i = some s ∧ s.rank = u.rank ∧
      s.nextRanked = u.nextRanked ∧ s.bucket = u.bucket) : b.Ranked where
  slots := slots
  live i u hu some := by
    obtain ⟨s, hs, rank, -, home⟩ := old i u hu some
    rw [← home]
    exact h.live i s hs (rank ▸ some)
  next i u j v p q hu hp hj hv hq := by
    obtain ⟨s, hs, rank, next, -⟩ := old i u hu (by rw [hp]; rfl)
    obtain ⟨w, hw, rank', -, -⟩ := old j v hv (by rw [hq]; rfl)
    exact h.next i s j w p q hs (rank.trans hp) (next.trans hj) hw (rank'.trans hq)

theorem Ranked.of_same {a b : Table} (h : a.Ranked)
    (same : a.segments.Same (fun s => (s.bucket, s.rank, s.nextRanked)) b.segments)
    (slots : b.ranking.slots = a.ranking.slots) : b.Ranked := by
  refine h.of_fewer (fun p i hi => ?_) fun i u hu _ => ?_
  · rw [slots] at hi
    obtain ⟨s, hs, rank⟩ := h.slots p i hi
    obtain ⟨u, hu, e⟩ := same.get? hs
    simp only [Prod.mk.injEq] at e
    exact ⟨u, hu, e.2.1.trans rank⟩
  · obtain ⟨s, hs, e⟩ := same.symm.get? hu
    simp only [Prod.mk.injEq] at e
    exact ⟨s, hs, e.2.1, e.2.2, e.1⟩

theorem get?_clearRank (a : Table) (i j : Slot) :
    (a.clearRank i).get? j = if i = j then (a.get? j).map fun s => { s with rank := none }
      else a.get? j := by
  unfold clearRank
  cases e : (a.get? i).bind (·.rank) with
  | some r => exact get?_modify ..
  | none =>
    dsimp only
    split
    · rename_i same
      subst same
      cases hs : a.get? i with
      | none => rfl
      | some s =>
        rw [hs, Option.bind_some] at e
        simp [← e]
    · rfl

theorem clearRank_buckets (a : Table) (i : Slot) : (a.clearRank i).buckets = a.buckets := by
  unfold clearRank
  split <;> rfl

theorem clearRank_segmentSize (a : Table) (i : Slot) :
    (a.clearRank i).segmentSize = a.segmentSize := by
  unfold clearRank
  split <;> rfl

theorem clearRank_nextId (a : Table) (i : Slot) : (a.clearRank i).nextId = a.nextId := by
  unfold clearRank
  split <;> rfl

theorem clearRank_counters (a : Table) (i : Slot) :
    (a.clearRank i).inUse = a.inUse ∧ (a.clearRank i).training = a.training := by
  unfold clearRank
  split <;> exact ⟨rfl, rfl⟩

theorem same_clearRank {β : Type} {f : Segment → β} (a : Table) (i : Slot)
    (hf : ∀ s, f { s with rank := none } = f s) : a.segments.Same f (a.clearRank i).segments := by
  intro j
  have get := a.get?_clearRank i j
  rw [Table.get?, Table.get?] at get
  rw [get]
  split
  · cases a.segments.get? j with
    | none => rfl
    | some s => exact congrArg some (hf s)
  · rfl

theorem Strung.clearRank {a : Table} {seqs : Nat → List Slot} {loose : Option Slot}
    (h : a.Strung seqs loose) (i : Slot) : (a.clearRank i).Strung seqs loose := by
  refine h.of_same ?_ (a.same_clearRank i fun _ => rfl) (a.clearRank_buckets i) (a.clearRank_counters i)
  unfold Table.clearRank
  split
  · exact h.sound
  · exact h.sound.modify i _

theorem Ranked.slots_clearRank {a : Table} (h : a.Ranked) (i : Slot) {p : Nat} {j : Slot}
    (hj : (a.clearRank i).ranking.slots[p]? = some (some j)) :
    a.ranking.slots[p]? = some (some j) ∧ j ≠ i := by
  unfold Table.clearRank at hj
  cases e : (a.get? i).bind (·.rank) with
  | none =>
    rw [e] at hj
    refine ⟨hj, fun same => ?_⟩
    subst same
    obtain ⟨s, hs, rank⟩ := h.slots p j hj
    rw [hs, Option.bind_some, rank] at e
    cases e
  | some r =>
    rw [e] at hj
    dsimp only at hj
    rw [Array.getElem?_modify] at hj
    split at hj
    · obtain ⟨o, ho, forgot⟩ := Option.map_eq_some_iff.mp hj
      unfold forget at forgot
      split at forgot
      · cases forgot
      · rename_i other
        subst forgot
        exact ⟨ho, fun same => other (congrArg some same)⟩
    · rename_i apart
      refine ⟨hj, fun same => ?_⟩
      subst same
      obtain ⟨s, hs, rank⟩ := h.slots p j hj
      rw [hs, Option.bind_some, rank] at e
      exact apart (Option.some.inj e).symm

theorem Ranked.clearRank {a : Table} (h : a.Ranked) (i : Slot) : (a.clearRank i).Ranked := by
  refine h.of_fewer (fun p j hj => ?_) fun j u hu some => ?_
  · obtain ⟨old, apart⟩ := h.slots_clearRank i hj
    rw [get?_clearRank, if_neg (Ne.symm apart)]
    exact h.slots p j old
  · rw [get?_clearRank] at hu
    split at hu
    · obtain ⟨s, -, rfl⟩ := Option.map_eq_some_iff.mp hu
      cases some
    · exact ⟨u, hu, rfl, rfl, rfl⟩

namespace Strung
variable {a b : Table} {loose : Option Slot} {i : Slot} {s : Segment}

theorem yields_unlink_ranked (h : a.Strung a.chainOf none) (r : a.Ranked) (hs : a.get? i = some s) :
    Yields ((a.clearRank i).unlink i) fun b =>
      b.Strung (Function.update a.chainOf s.bucket ((a.chainOf s.bucket).erase i)) (some i) ∧
      (∀ k, i ∉ Function.update a.chainOf s.bucket ((a.chainOf s.bucket).erase i) k) ∧ b.Ranked ∧
      (∀ (p : Nat), b.ranking.slots[p]? ≠ some (some i)) ∧
      (∃ l, b.get? i = some { s with links := l, rank := none }) ∧
      (∀ j, j ≠ i → (b.get? j).map bare = (a.get? j).map bare) ∧ b.segmentSize = a.segmentSize := by
  have cleared : (a.clearRank i).get? i = some { s with rank := none } := by
    rw [get?_clearRank, if_pos rfl, hs]
    rfl
  have hi : i ∈ a.chainOf s.bucket := (h.mem_iff _ i).mpr ⟨s, hs, rfl⟩
  refine (((h.loosen (some i)).clearRank i).yields_unlink cleared hi).mono fun b unlinked => ?_
  obtain ⟨strung, out, same, ranking, size⟩ := unlinked
  refine ⟨strung, out, ?_, fun p hp => ?_, ?_, fun j hj => ?_, size.trans (a.clearRank_segmentSize i)⟩
  · exact (r.clearRank i).of_same (same.of_comp (fun s => (s.bucket, s.rank, s.nextRanked)) fun _ => rfl)
      (by rw [ranking])
  · rw [ranking] at hp
    exact (r.slots_clearRank i hp).2 rfl
  · obtain ⟨u, hu, e⟩ := same.get? cleared
    refine ⟨u.links, hu.trans (congrArg some ?_)⟩
    have back := congrArg (Linked.withLinks · u.links) e
    exact back
  · have kept : (a.clearRank i).get? j = a.get? j := by rw [get?_clearRank, if_neg (Ne.symm hj)]
    rw [← kept]
    exact same j

theorem yields_free (h : a.Strung a.chainOf none) (r : a.Ranked) (hs : a.get? i = some s) :
    Yields (a.free i) fun b =>
      b.Strung (Function.update a.chainOf s.bucket ((a.chainOf s.bucket).erase i)) none ∧ b.Ranked ∧
      b.get? i = none ∧ (∀ j, j ≠ i → (b.get? j).map bare = (a.get? j).map bare) ∧
      b.segmentSize = a.segmentSize := by
  unfold Table.free
  refine yields_bind (h.yields_unlink_ranked r hs) fun b unlinked => ?_
  obtain ⟨strung, out, ranked, unnamed, -, others, size⟩ := unlinked
  have get := b.segments.get?_remove i
  have other : ∀ j, j ≠ i → (b.segments.remove i).2.get? j = b.segments.get? j := fun j hj => by
    rw [get, if_neg (Ne.symm hj)]
  have gone : (b.segments.remove i).2.get? i = none := by rw [get, if_pos rfl]
  refine yields_pure ⟨strung.remove out, ?_, gone, fun j hj => ?_, size⟩
  · refine ranked.of_fewer (fun p j hj => ?_) fun j u hu _ => ?_
    · have apart : j ≠ i := fun same => unnamed p (same ▸ hj)
      rw [Table.get?, other j apart]
      exact ranked.slots p j hj
    · have apart : j ≠ i := by
        rintro rfl
        rw [show (b.segments.remove j).2.get? j = some u from hu] at gone
        cases gone
      rw [Table.get?, other j apart] at hu
      exact ⟨u, hu, rfl, rfl, rfl⟩
  · rw [Table.get?, other j hj]
    exact others j hj

theorem yields_retire (h : a.Strung a.chainOf none) (r : a.Ranked) (hs : a.get? i = some s)
    (home : s.bucket ≠ quarantine) (now : Int) :
    Yields (a.retire i now) fun b =>
      b.Strung (Function.update (Function.update a.chainOf s.bucket ((a.chainOf s.bucket).erase i))
        quarantine (a.chainOf quarantine ++ [i])) none ∧ b.Ranked ∧
      (∃ l, b.get? i = some { s with
        links := l, rank := none, bucket := quarantine, labelledFrom := now, label := 0 }) ∧
      (∀ j, j ≠ i → (b.get? j).map bare = (a.get? j).map bare) ∧ b.segmentSize = a.segmentSize := by
  unfold Table.retire
  refine yields_bind (h.yields_unlink_ranked r hs) fun b unlinked => ?_
  obtain ⟨strung, out, ranked, unnamed, ⟨l, hu⟩, others, size⟩ := unlinked
  have get := b.get?_modify i (f := fun s =>
    { s with bucket := quarantine, labelledFrom := now, label := 0 })
  have moved := strung.modify_loose (f := fun s =>
    { s with bucket := quarantine, labelledFrom := now, label := 0 }) fun _ => rfl
  have ranking : (b.modify i fun s =>
    { s with bucket := quarantine, labelledFrom := now, label := 0 }).ranking = b.ranking := rfl
  have size' : (b.modify i fun s =>
    { s with bucket := quarantine, labelledFrom := now, label := 0 }).segmentSize = b.segmentSize := rfl
  generalize (b.modify i fun s =>
    { s with bucket := quarantine, labelledFrom := now, label := 0 }) = d at get moved ranking size' ⊢
  have self := get i
  rw [if_pos rfl, hu] at self
  have other : ∀ j, j ≠ i → d.get? j = b.get? j := fun j hj => by rw [get, if_neg (Ne.symm hj)]
  have ranked' : d.Ranked := by
    refine ranked.of_fewer (fun p j hj => ?_) fun j u hu some => ?_
    · rw [ranking] at hj
      rw [other j fun same => unnamed p (same ▸ hj)]
      exact ranked.slots p j hj
    · by_cases same : j = i
      · rw [same, self] at hu
        cases hu
        cases some
      · rw [other j same] at hu
        exact ⟨u, hu, rfl, rfl, rfl⟩
  obtain ⟨strung', same, ranking', size''⟩ := moved.append out self (by
    rw [moved.size_buckets]
    exact Nat.lt_succ_self _)
  refine yields_pure ⟨?_, ?_, ?_, fun j hj => ?_, (size''.trans size').trans size⟩
  · have waiting : Function.update a.chainOf s.bucket ((a.chainOf s.bucket).erase i) quarantine =
        a.chainOf quarantine := Function.update_of_ne (Ne.symm home) _ _
    rw [← waiting]
    exact strung'
  · exact ranked'.of_same (same.of_comp (fun s => (s.bucket, s.rank, s.nextRanked)) fun _ => rfl)
      (by rw [ranking'])
  · obtain ⟨v, hv, e⟩ := same.get? self
    refine ⟨v.links, hv.trans (congrArg some ?_)⟩
    have back := congrArg (Linked.withLinks · v.links) e
    exact back
  · rw [← others j hj, ← other j hj]
    exact same j

end Strung

theorem get?_rankLast {a : Table} {i : Slot} {s : Segment} (hs : a.get? i = some s) (rank : Nat)
    (j : Slot) : (a.rankLast rank i).get? j =
      (if i = j then some { s with rank := some rank, nextRanked := none } else a.get? j).map fun u =>
        if (a.bucket s.bucket).rankedTail = some j then { u with nextRanked := some i } else u := by
  have first := a.get?_modify i j fun s => { s with rank := some rank, nextRanked := none }
  have e : (if i = j then some { s with rank := some rank, nextRanked := none } else a.get? j) =
      (a.modify i fun s => { s with rank := some rank, nextRanked := none }).get? j := by
    rw [first]
    split
    · rename_i same
      rw [← same, hs]
      rfl
    · rfl
  rw [e]
  unfold rankLast
  rw [hs]
  dsimp only
  rw [get?_modifyBucket, show (a.modify i fun s => { s with rank := some rank, nextRanked := none }).bucket
    s.bucket = a.bucket s.bucket from rfl]
  cases (a.bucket s.bucket).rankedTail with
  | none => simp
  | some k =>
    dsimp only
    rw [get?_modify]
    by_cases same : k = j
    · simp [same]
    · simp [same]

theorem bucket_rankLast {a : Table} {i : Slot} {s : Segment} (hs : a.get? i = some s)
    (hk : s.bucket < a.buckets.size) (rank m : Nat) : (a.rankLast rank i).bucket m =
      if m = s.bucket then { a.bucket m with
        rankedHead := if (a.bucket m).rankedTail.isSome then (a.bucket m).rankedHead else some i
        rankedTail := some i }
      else a.bucket m := by
  unfold rankLast
  rw [hs]
  dsimp only
  have home : ∀ b : Table, b.buckets = a.buckets → ∀ f : Bucket → Bucket,
      (b.modifyBucket s.bucket f).bucket m = if m = s.bucket then f (a.bucket m) else a.bucket m := by
    intro b same f
    have bucket : b.bucket = a.bucket := by
      funext k
      rw [Table.bucket, Table.bucket, same]
    rw [bucket_modifyBucket (by rw [same]; exact hk), bucket]
    split
    · rename_i e
      rw [e]
    · rfl
  rw [show (a.modify i fun s => { s with rank := some rank, nextRanked := none }).bucket s.bucket =
    a.bucket s.bucket from rfl]
  rw [home]
  · split
    · rename_i e
      rw [e]
    · rfl
  · split <;> rfl

/-- What ranking does not change. -/
def Segment.unranked (s : Segment) : Segment := { s with rank := none, nextRanked := none }

theorem same_rankLast (a : Table) (rank : Nat) (i : Slot) :
    a.segments.Same Segment.unranked (a.rankLast rank i).segments := by
  cases hs : a.get? i with
  | none =>
    unfold rankLast
    rw [hs]
    exact .refl _ _
  | some s =>
    intro j
    have get := get?_rankLast hs rank j
    rw [show (a.rankLast rank i).segments.get? j = _ from get]
    by_cases e : i = j
    · rw [if_pos e, ← e, show a.segments.get? i = some s from hs]
      simp only [Option.map_some, Option.some.injEq]
      split <;> rfl
    · rw [if_neg e, show a.segments.get? j = a.get? j from rfl]
      cases a.get? j with
      | none => rfl
      | some u =>
        simp only [Option.map_some, Option.some.injEq]
        split <;> rfl

theorem home_rankLast {a : Table} {rank : Nat} {i j : Slot}
    (h : ∃ s, a.get? j = some s ∧ s.bucket < liveBuckets) :
    ∃ s, (a.rankLast rank i).get? j = some s ∧ s.bucket < liveBuckets := by
  obtain ⟨s, hs, home⟩ := h
  obtain ⟨u, hu, e⟩ := ((a.same_rankLast rank i).of_comp (g := Segment.bucket) Segment.bucket
    fun _ => rfl).get? hs
  exact ⟨u, hu, by rw [e]; exact home⟩

theorem Strung.rankLast {a : Table} {seqs : Nat → List Slot} (h : a.Strung seqs none) (rank : Nat)
    (i : Slot) : (a.rankLast rank i).Strung seqs none := by
  unfold Table.rankLast
  cases hs : a.get? i with
  | none => exact h
  | some s =>
    dsimp only
    have first := h.modify i (f := fun s => { s with rank := some rank, nextRanked := none })
      fun _ _ => ⟨rfl, rfl⟩
    generalize (a.modify i fun s => { s with rank := some rank, nextRanked := none }) = b at first ⊢
    cases (b.bucket s.bucket).rankedTail with
    | none => exact first.modifyBucket rfl (first.cursor s.bucket)
    | some j =>
      have second := first.modify j (f := fun r => { r with nextRanked := some i })
        fun _ _ => ⟨rfl, rfl⟩
      exact second.modifyBucket rfl (second.cursor s.bucket)

theorem rankLast_ranking (a : Table) (rank : Nat) (i : Slot) :
    (a.rankLast rank i).ranking = a.ranking ∧ (a.rankLast rank i).segmentSize = a.segmentSize := by
  unfold rankLast
  cases a.get? i with
  | none => exact ⟨rfl, rfl⟩
  | some s =>
    dsimp only
    split <;> exact ⟨rfl, rfl⟩

theorem rankLast_nextId (a : Table) (rank : Nat) (i : Slot) : (a.rankLast rank i).nextId = a.nextId := by
  unfold rankLast
  cases a.get? i with
  | none => rfl
  | some s =>
    dsimp only
    split <;> rfl

theorem rankFrom_nextId (rank : Nat) (rest : List Slot) (a : Table) :
    (a.rankFrom rank rest).nextId = a.nextId := by
  induction rest generalizing rank a with
  | nil => rfl
  | cons i rest ih => exact (ih (rank + 1) (a.rankLast rank i)).trans (a.rankLast_nextId rank i)

structure RankedUpTo (a : Table) (done : List Slot) : Prop where
  ranks : ∀ (p : Nat) i, done[p]? = some i →
    ∃ s, a.get? i = some s ∧ s.rank = some p ∧ s.bucket < liveBuckets
  next : ∀ (p : Nat) i s j, done[p]? = some i → a.get? i = some s → s.nextRanked = some j →
    ∃ q, p < q ∧ done[q]? = some j
  tail : ∀ k < liveBuckets, ∀ j, (a.bucket k).rankedTail = some j → j ∈ done

theorem getElem?_concat_iff {done : List Slot} {i j : Slot} {p : Nat} :
    (done ++ [i])[p]? = some j ↔ done[p]? = some j ∨ p = done.length ∧ j = i := by
  by_cases lt : p < done.length
  · rw [List.getElem?_append_left lt, or_iff_left fun last => Nat.ne_of_lt lt last.1]
  · have none : done[p]? = none := List.getElem?_eq_none (Nat.le_of_not_lt lt)
    rw [List.getElem?_append_right (Nat.le_of_not_lt lt), List.getElem?_singleton, none]
    by_cases last : p = done.length
    · simp [last, eq_comm]
    · have apart : p - done.length ≠ 0 := by omega
      simp [last, apart]

/-- The segment ranked last is new; its predecessor in its bucket alone is linked to it. -/
theorem RankedUpTo.rankLast {a : Table} {done : List Slot} (h : a.RankedUpTo done) {i : Slot}
    {s : Segment} (hi : i ∉ done) (hs : a.get? i = some s) (hk : s.bucket < liveBuckets)
    (size : a.buckets.size = liveBuckets + 1) :
    (a.rankLast done.length i).RankedUpTo (done ++ [i]) ∧
      ∀ j, j ≠ i → j ∉ done → (a.rankLast done.length i).get? j = a.get? j := by
  have get := get?_rankLast hs done.length
  have tail := h.tail s.bucket hk
  have apart : (a.bucket s.bucket).rankedTail ≠ some i := fun e => hi (tail i e)
  have self : (a.rankLast done.length i).get? i =
      some { s with rank := some done.length, nextRanked := none } := by
    rw [get, if_pos rfl, Option.map_some, if_neg apart]
  have ranked_before : ∀ {p : Nat} {j : Slot}, done[p]? = some j → i ≠ j := fun hp e =>
    hi (e ▸ List.mem_of_getElem? hp)
  refine ⟨⟨fun p j hp => ?_, fun p j u m hp hu hm => ?_, fun k hk' j hj => ?_⟩, fun j hji hj => ?_⟩
  · rcases getElem?_concat_iff.mp hp with old | last
    · obtain ⟨u, hu, rank, home⟩ := h.ranks p j old
      rw [get, if_neg (ranked_before old), hu, Option.map_some]
      refine ⟨_, rfl, ?_, ?_⟩
      · split <;> exact rank
      · split <;> exact home
    · rw [last.1, last.2]
      exact ⟨_, self, rfl, hk⟩
  · rcases getElem?_concat_iff.mp hp with old | last
    · have lt : p < done.length := (List.getElem?_eq_some_iff.mp old).1
      rw [get, if_neg (ranked_before old)] at hu
      obtain ⟨v, hv, rfl⟩ := Option.map_eq_some_iff.mp hu
      split at hm
      · cases hm
        exact ⟨done.length, lt, getElem?_concat_iff.mpr (.inr ⟨rfl, rfl⟩)⟩
      · obtain ⟨q, hpq, hq⟩ := h.next p j v m old hv hm
        exact ⟨q, hpq, getElem?_concat_iff.mpr (.inl hq)⟩
    · rw [last.2, self] at hu
      cases hu
      cases hm
  · rw [bucket_rankLast hs (by omega)] at hj
    split at hj
    · cases hj
      simp
    · exact List.mem_append_left _ (h.tail k hk' j hj)
  · have unlinked : (a.bucket s.bucket).rankedTail ≠ some j := fun e => hj (tail j e)
    rw [get, if_neg (Ne.symm hji)]
    simp [unlinked]

theorem RankedUpTo.rankFrom {a : Table} {done rest : List Slot} {seqs : Nat → List Slot}
    (h : a.RankedUpTo done) (strung : a.Strung seqs none) (nodup : (done ++ rest).Nodup)
    (live : ∀ i ∈ rest, ∃ s, a.get? i = some s ∧ s.bucket < liveBuckets) :
    (a.rankFrom done.length rest).RankedUpTo (done ++ rest) ∧
      (a.rankFrom done.length rest).Strung seqs none ∧
      a.segments.Same Segment.unranked (a.rankFrom done.length rest).segments ∧
      (∀ j, j ∉ done ++ rest → (a.rankFrom done.length rest).get? j = a.get? j) ∧
      (a.rankFrom done.length rest).ranking = a.ranking ∧
      (a.rankFrom done.length rest).segmentSize = a.segmentSize := by
  induction rest generalizing a done with
  | nil =>
    rw [List.append_nil]
    exact ⟨h, strung, .refl _ _, fun _ _ => rfl, rfl, rfl⟩
  | cons i rest ih =>
    obtain ⟨s, hs, hk⟩ := live i List.mem_cons_self
    have hi : i ∉ done := fun hmem =>
      (List.nodup_append.mp nodup).2.2 i hmem i List.mem_cons_self rfl
    obtain ⟨step, keep⟩ := h.rankLast hi hs hk strung.size_buckets
    have same := a.same_rankLast done.length i
    have split : done ++ i :: rest = (done ++ [i]) ++ rest := by simp
    have live' : ∀ j ∈ rest, ∃ u, (a.rankLast done.length i).get? j = some u ∧
        u.bucket < liveBuckets := fun j hj => home_rankLast (live j (List.mem_cons_of_mem i hj))
    have next := ih step (strung.rankLast done.length i) (split ▸ nodup) live'
    rw [List.length_append, List.length_singleton] at next
    obtain ⟨ranked, strung', same', keep', ranking', size'⟩ := next
    obtain ⟨ranking, size⟩ := a.rankLast_ranking done.length i
    rw [split]
    refine ⟨ranked, strung', same.trans same', fun j hj => ?_, ranking'.trans ranking,
      size'.trans size⟩
    have hj' : j ∉ done ∧ j ≠ i := by
      constructor
      · exact fun hmem => hj (by simp [hmem])
      · exact fun e => hj (by simp [e])
    exact (keep' j hj).trans (keep j hj'.2 hj'.1)

theorem mem_rankingOrder_iff {a : Table} (h : a.Strung a.chainOf none) (i : Slot) :
    i ∈ a.rankingOrder ↔ ∃ s, a.get? i = some s ∧ s.bucket ≠ quarantine := by
  rw [a.rankingOrder_perm.mem_iff, List.mem_filter, h.mem_live_iff]
  constructor
  · intro both
    exact both.1
  · intro found
    obtain ⟨s, hs, home⟩ := found
    exact ⟨⟨s, hs, home⟩, by rw [hs]; rfl⟩

theorem RankedUpTo.ranked {a : Table} {done : List Slot} (h : a.RankedUpTo done)
    (slots : ∀ (p : Nat) i, a.ranking.slots[p]? = some (some i) → done[p]? = some i)
    (listed : ∀ i u, a.get? i = some u → u.rank.isSome → i ∈ done) : a.Ranked := by
  have at_rank : ∀ {i u p}, a.get? i = some u → u.rank = some p →
      done[p]? = some i ∧ u.bucket < liveBuckets := by
    intro i u p hu hp
    obtain ⟨q, hq⟩ := List.mem_iff_getElem?.mp (listed i u hu (by rw [hp]; rfl))
    obtain ⟨s, hs, rank, home⟩ := h.ranks q i hq
    rw [hu] at hs
    cases hs
    rw [hp] at rank
    cases rank
    exact ⟨hq, home⟩
  refine ⟨fun p i hi => ?_, fun i u hu some => ?_, fun i u j v p q hu hp hj hv hq => ?_⟩
  · obtain ⟨s, hs, rank, -⟩ := h.ranks p i (slots p i hi)
    exact ⟨s, hs, rank⟩
  · obtain ⟨p, hp⟩ := Option.isSome_iff_exists.mp some
    exact Nat.ne_of_lt (at_rank hu hp).2
  · obtain ⟨q', lt, hq'⟩ := h.next p i u j (at_rank hu hp).1 hu hj
    obtain ⟨w, hw, rank, -⟩ := h.ranks q' j hq'
    rw [hv] at hw
    cases hw
    rw [hq] at rank
    cases rank
    exact lt

theorem getElem?_padded {order : List Slot} {n p : Nat} {i : Slot}
    (h : ((order.map some).toArray ++ Array.replicate n none)[p]? = some (some i)) :
    order[p]? = some i := by
  simp only [Array.getElem?_append, List.size_toArray, List.length_map] at h
  split at h
  · simpa using h
  · rw [Array.getElem?_replicate] at h
    split at h <;> cases h

/-- A table with an order to be ranked in, of which nothing is ranked yet. -/
def unthreaded (a : Table) (order : List Slot) : Table :=
  { a with
    buckets := a.buckets.mapIdx fun k b =>
      if k < liveBuckets then { b with rankedHead := none, rankedTail := none } else b
    ranking := ⟨(order.map some).toArray ++
      Array.replicate (Ranking.room a.ranking.slots.size order.length - order.length) none,
      some 0, order.length⟩ }

theorem rerank_eq (a : Table) : a.rerank = rankFrom 0 a.rankingOrder (a.unthreaded a.rankingOrder) := rfl

theorem bucket_unthreaded (a : Table) (order : List Slot) (k : Nat) : (a.unthreaded order).bucket k =
    if k < liveBuckets then { a.bucket k with rankedHead := none, rankedTail := none }
    else a.bucket k := by
  rw [Table.bucket, Table.bucket, unthreaded, Array.getElem?_mapIdx]
  cases a.buckets[k]? with
  | none => split <;> rfl
  | some b => rfl

theorem Strung.unthreaded {a : Table} {seqs : Nat → List Slot} (h : a.Strung seqs none)
    (order : List Slot) : (a.unthreaded order).Strung seqs none := by
  refine h.of_parts h.sound (.refl _ _) (by simp [Table.unthreaded]) (fun k => ?_) (fun k j hj => ?_)
    ⟨rfl, rfl⟩
  · rw [bucket_unthreaded]
    split <;> rfl
  · rw [bucket_unthreaded] at hj
    split at hj
    · exact h.cursor k j hj
    · exact h.cursor k j hj

theorem rankedUpTo_unthreaded (a : Table) (order : List Slot) : (a.unthreaded order).RankedUpTo [] := by
  refine ⟨fun p i hp => by simp at hp, fun p i s j hp => by simp at hp, fun k hk j hj => ?_⟩
  rw [bucket_unthreaded, if_pos hk] at hj
  cases hj

theorem Strung.nodup_rankingOrder {a : Table} (h : a.Strung a.chainOf none) : a.rankingOrder.Nodup :=
  a.rankingOrder_perm.nodup_iff.mpr (h.nodup_live.filter _)

theorem Strung.home_of_ranked {a : Table} (h : a.Strung a.chainOf none) {i : Slot}
    (hi : i ∈ a.rankingOrder) : ∃ s, a.get? i = some s ∧ s.bucket < liveBuckets := by
  obtain ⟨s, hs, home⟩ := (mem_rankingOrder_iff h i).mp hi
  exact ⟨s, hs, Nat.lt_of_le_of_ne (h.bucket_lt hs) home⟩

/-- Ranking anew keeps the chains and ranks exactly the live segments. -/
theorem rerank_spec {a : Table} (h : a.Strung a.chainOf none)
    (unranked : ∀ i s, a.get? i = some s → s.rank.isSome → s.bucket ≠ quarantine) :
    a.rerank.Strung a.chainOf none ∧ a.rerank.Ranked ∧ Carried a a.rerank := by
  have start := rankedUpTo_unthreaded a a.rankingOrder
  have nodup : ([] ++ a.rankingOrder).Nodup := h.nodup_rankingOrder
  obtain ⟨done, strung, same, keep, ranking, size⟩ := start.rankFrom (h.unthreaded _) nodup
    fun i hi => h.home_of_ranked hi
  rw [List.length_nil, ← rerank_eq] at done strung same keep ranking size
  rw [List.nil_append] at done keep
  refine ⟨strung, done.ranked (fun p i hi => ?_) fun i u hu some => ?_,
    same.of_comp Segment.cargo fun _ => rfl, size, rankFrom_nextId 0 _ _⟩
  · rw [ranking] at hi
    exact getElem?_padded hi
  · -- A rank outside of the order would be an old one, which live segments only carry.
    by_contra hi
    rw [keep i hi] at hu
    exact hi ((mem_rankingOrder_iff h i).mpr ⟨u, hu, unranked i u hu some⟩)

end CacheReplay.GLCache.Table
