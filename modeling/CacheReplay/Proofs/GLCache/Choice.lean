import CacheReplay.Proofs.GLCache.Valuation

set_option autoImplicit false

namespace CacheReplay.GLCache

variable {t : Tolerance}

/-- What a choice of runs of `n` segments must be, for a table with some sequences. -/
def Choice.Legal (seqs : Nat → List Slot) (n : Nat) : Choice → Prop
  | .merge run => run.length = n ∧ run.Nodup ∧
      ∃ k < liveBuckets, ∀ i ∈ run, i ∈ seqs k ∧ (seqs k).getLast? ≠ some i
  | .single i => ∃ k < liveBuckets, i ∈ seqs k

namespace Table
namespace Strung
variable {a : Table} {seqs : Nat → List Slot} {loose : Option Slot} {k : Nat}
  (h : a.Strung seqs loose)
include h

theorem run_eq {l s : List Slot} (hs : seqs k = l ++ s) (n : Nat) :
    a.run true n s.head? = (s.take n, (s.drop n).head?) := by
  induction n generalizing l s with
  | zero => simp [run]
  | succ n ih =>
    cases s with
    | nil => simp [run]
    | cons i s =>
      have next : a.segments.nextOf i = s.head? := (h.family.represents k).nextOf hs
      have rest := ih (l := l ++ [i]) (s := s) (by simp [hs])
      simp only [List.head?_cons, run, neighbour, if_true, next, rest]
      simp

theorem mergeable_iff {l s : List Slot} (hs : seqs k = l ++ s) (n : Nat) :
    a.mergeable true n s.head? = true ↔ n = 0 ∨ n < s.length := by
  induction n generalizing l s with
  | zero => simp [mergeable]
  | succ n ih =>
    cases s with
    | nil => simp [mergeable]
    | cons i s =>
      have next : a.segments.nextOf i = s.head? := (h.family.represents k).nextOf hs
      have rest := ih (l := l ++ [i]) (s := s) (by simp [hs])
      simp only [List.head?_cons, mergeable, neighbour, if_true, next, Bool.and_eq_true, rest,
        List.length_cons]
      cases s with
      | nil => simp
      | cons j s =>
        simp
        omega

/-- A stretch that does not reach the back of a live bucket may be merged. -/
theorem legal_take {l s : List Slot} (hs : seqs k = l ++ s) (hk : k < liveBuckets) {n : Nat}
    (hn : n < s.length) : (Choice.merge (s.take n)).Legal seqs n := by
  have nodup := (h.family.represents k).nodup
  rw [hs] at nodup
  have inner := (List.nodup_append.mp nodup).2.1
  refine ⟨List.length_take_of_le (Nat.le_of_lt hn), inner.sublist (List.take_sublist n s), k, hk, ?_⟩
  intro i hi
  refine ⟨hs ▸ List.mem_append_right l (List.mem_of_mem_take hi), fun last => ?_⟩
  have rest : s.drop n ≠ [] := by
    intro nil
    have := congrArg List.length nil
    rw [List.length_drop, List.length_nil] at this
    omega
  have final : (seqs k).getLast? = (s.drop n).getLast? := by
    rw [hs, ← List.take_append_drop n s, ← List.append_assoc, List.getLast?_append,
      List.take_append_drop, List.getLast?_eq_some_getLast rest]
    rfl
  rw [final] at last
  rw [← List.take_append_drop n s] at inner
  exact (List.nodup_append.mp inner).2.2 i hi i (List.mem_of_getLast? last) rfl

theorem getLast?_ne {i : Slot} (hi : i ∈ seqs k) (next : (a.segments.nextOf i).isSome) :
    (seqs k).getLast? ≠ some i := by
  obtain ⟨l, r, hs⟩ := List.append_of_mem hi
  rw [(h.family.represents k).nextOf hs] at next
  have nodup := (h.family.represents k).nodup
  rw [hs] at nodup ⊢
  cases r using List.reverseRecOn with
  | nil => cases next
  | append_singleton r j _ =>
    intro last
    have e : j = i := by simpa [List.getLast?_append, List.getLast?_cons] using last
    have apart := (List.nodup_cons.mp (List.nodup_append.mp nodup).2.1).1
    exact apart (by simp [e])

end Strung

theorem rankedNext_eq_some {a : Table} {i j : Slot} (e : a.rankedNext i = some j) :
    ∃ s u, a.get? i = some s ∧ s.nextRanked = some j ∧ a.get? j = some u ∧ u.bucket = s.bucket ∧
      u.rank.isSome := by
  unfold rankedNext at e
  simp only [Option.bind_eq_bind, Option.bind_eq_some_iff] at e
  obtain ⟨s, hs, m, next, u, hu, e⟩ := e
  split at e
  · rename_i both
    cases e
    exact ⟨s, u, hs, next, hu, both.1, both.2⟩
  · cases e

theorem Ranked.run_spec {a : Table} (r : a.Ranked) {n p : Nat} {i : Slot} {s : Segment}
    (hs : a.get? i = some s) (hp : s.rank = some p) (m : a.mergeable false n (some i) = true) :
    (a.run false n (some i)).1.Nodup ∧ ∀ j ∈ (a.run false n (some i)).1, ∃ u q,
      a.get? j = some u ∧ u.bucket = s.bucket ∧ u.rank = some q ∧ p ≤ q ∧
      (a.segments.nextOf j).isSome := by
  induction n generalizing i s p with
  | zero => simp [run]
  | succ n ih =>
    simp only [mergeable, Bool.and_eq_true, neighbour, Bool.false_eq_true, if_false] at m
    simp only [run, neighbour, Bool.false_eq_true, if_false]
    have self : ∃ u q, a.get? i = some u ∧ u.bucket = s.bucket ∧ u.rank = some q ∧ p ≤ q ∧
        (a.segments.nextOf i).isSome := ⟨s, p, hs, rfl, hp, Nat.le_refl p, m.1⟩
    cases next : a.rankedNext i with
    | none =>
      have nil : (a.run false n none).1 = [] := by cases n <;> rfl
      rw [nil]
      refine ⟨List.nodup_singleton i, fun j hj => ?_⟩
      rw [List.mem_singleton.mp hj]
      exact self
    | some j =>
      obtain ⟨v, u, hv, link, hu, home, ranked⟩ := rankedNext_eq_some next
      rw [hs] at hv
      cases hv
      obtain ⟨q, hq⟩ := Option.isSome_iff_exists.mp ranked
      have lt := r.next i s j u p q hs hp link hu hq
      obtain ⟨nodup, rest⟩ := ih hu hq (next ▸ m.2)
      refine ⟨List.nodup_cons.mpr ⟨fun hi => ?_, nodup⟩, fun m hm => ?_⟩
      · obtain ⟨w, q', hw, -, hq', le, -⟩ := rest i hi
        rw [hs] at hw
        cases hw
        rw [hp] at hq'
        cases hq'
        omega
      · rcases List.mem_cons.mp hm with rfl | hm
        · exact self
        · obtain ⟨w, q', hw, home', hq', le, more⟩ := rest m hm
          exact ⟨w, q', hw, home'.trans home, hq', by omega, more⟩

theorem mergeable_rank (a : Table) (ranking : Ranking) (consecutive : Bool) (n : Nat)
    (i : Option Slot) :
    ({ a with ranking } : Table).mergeable consecutive n i = a.mergeable consecutive n i := by
  induction n generalizing i with
  | zero => rfl
  | succ n ih =>
    cases i with
    | none => rfl
    | some i =>
      rw [mergeable, mergeable, ih]
      rfl

namespace Settled
variable {a b : Table} {seqs : Nat → List Slot}

theorem inUse_eq (h : Settled seqs a b) (strung : a.Strung seqs none) : b.inUse = a.inUse := by
  have live : b.live = a.live := by
    rw [live, live, funext h.strung.chainOf_eq, funext strung.chainOf_eq]
  rw [h.strung.listed.inUse_eq, strung.listed.inUse_eq, live]

theorem clearRank (h : Settled seqs a b) (i : Slot) : Settled seqs a (b.clearRank i) where
  strung := h.strung.clearRank i
  ranked := h.ranked.clearRank i
  carried := h.carried.trans ⟨b.same_clearRank i fun _ => rfl, b.clearRank_segmentSize i, b.clearRank_nextId i⟩

theorem clearRanks (h : Settled seqs a b) (run : List Slot) :
    Settled seqs a (run.foldl Table.clearRank b) := by
  induction run generalizing b with
  | nil => exact h
  | cons i run ih => exact ih (h.clearRank i)

theorem modifyBucket (h : Settled seqs a b) {k : Nat} {f : Bucket → Bucket}
    (chain : (f (b.bucket k)).chain = (b.bucket k).chain)
    (cursor : ∀ j, (f (b.bucket k)).cursor = some j → j ∈ seqs k) :
    Settled seqs a (b.modifyBucket k f) where
  strung := h.strung.modifyBucket chain cursor
  ranked := h.ranked.of_same (.refl _ _) rfl
  carried := h.carried.trans ⟨.refl _ _, rfl, rfl⟩

theorem reposition (h : Settled seqs a b) (position : Option Nat) :
    Settled seqs a { b with ranking := { b.ranking with position } } where
  strung := h.strung.of_same h.strung.sound (.refl _ _) rfl ⟨rfl, rfl⟩
  ranked := h.ranked.of_same (.refl _ _) rfl
  carried := h.carried.trans ⟨.refl _ _, rfl, rfl⟩

end Settled
end Table

namespace Chooser

/-- What a choice may start from and ends with. -/
structure Fit (seqs : Nat → List Slot) (a : Table) (c : Chooser) : Prop where
  settled : Table.Settled seqs a c.table
  turn : c.turn < liveBuckets

/-- A legal choice, and one at all unless no segment is live. -/
structure Chose (seqs : Nat → List Slot) (n : Nat) (a : Table) (p : Option Choice × Chooser) :
    Prop where
  fit : p.2.Fit seqs a
  legal : ∀ choice, p.1 = some choice → choice.Legal seqs n

theorem nextTurn_lt (k : Nat) : nextTurn k < liveBuckets := Nat.mod_lt _ (by decide)

namespace Fit
variable {seqs : Nat → List Slot} {a : Table} {c : Chooser} (h : c.Fit seqs a)
include h

theorem setCursor {k : Nat} {i : Option Slot} (hi : ∀ j, i = some j → j ∈ seqs k) :
    (c.setCursor k i).Fit seqs a := ⟨h.settled.modifyBucket rfl hi, h.turn⟩

theorem setCursor_none (k : Nat) : (c.setCursor k none).Fit seqs a := h.setCursor nofun

theorem draw (range : Nat) : (c.draw range).2.Fit seqs a := ⟨h.settled, h.turn⟩

theorem setPosition (p : Option Nat) : (c.setPosition p).Fit seqs a :=
  ⟨h.settled.reposition p, h.turn⟩

theorem start_eq (k : Nat) : ∃ l s, seqs k = l ++ s ∧ c.start k = s.head? := by
  unfold start
  cases e : (c.table.bucket k).cursor with
  | none => exact ⟨[], seqs k, rfl, (h.settled.strung.family.represents k).front_eq⟩
  | some i =>
    obtain ⟨l, r, hs⟩ := List.append_of_mem (h.settled.strung.cursor k i e)
    exact ⟨l, i :: r, hs, rfl⟩

end Fit

theorem bucketOf_eq_some {a : Table} {ks : List Nat} {r k : Nat} (e : bucketOf a ks r = some k) :
    k ∈ ks ∧ 0 < a.count k := by
  induction ks generalizing r with
  | nil => cases e
  | cons m ks ih =>
    rw [bucketOf] at e
    split at e
    · cases e
      exact ⟨List.mem_cons_self, by omega⟩
    · obtain ⟨mem, pos⟩ := ih e
      exact ⟨List.mem_cons_of_mem m mem, pos⟩

theorem isSome_bucketOf {a : Table} {ks : List Nat} {r : Nat} (lt : r < (ks.map a.count).sum) :
    (bucketOf a ks r).isSome := by
  induction ks generalizing r with
  | nil => simp at lt
  | cons k ks ih =>
    rw [bucketOf]
    split
    · rfl
    · apply ih
      rw [List.map_cons, List.sum_cons] at lt
      omega

section
variable {seqs : Nat → List Slot} {a : Table} {n : Nat}

theorem Fit.oldest {c : Chooser} (h : c.Fit seqs a) :
    Chose seqs n a c.oldest ∧ (0 < c.table.inUse → c.oldest.1.isSome) := by
  have strung := h.settled.strung
  have sum : ((List.range liveBuckets).map c.table.count).sum = c.table.inUse := by
    rw [strung.listed.inUse_eq, Table.live, List.length_flatMap]
    congr 1
    refine List.map_congr_left fun k _ => ?_
    rw [strung.count_eq, strung.chainOf_eq]
  unfold Chooser.oldest
  by_cases zero : c.table.inUse = 0
  · rw [if_pos zero]
    refine ⟨⟨h, fun choice none => ?_⟩, fun pos => by omega⟩
    cases none
  · rw [if_neg zero]
    have less : (c.draw c.table.inUse).1 < c.table.inUse :=
      Randomness.Generator.below32_lt (Nat.pos_of_ne_zero zero) c.random
    have drawn := h.draw c.table.inUse
    have same : (c.draw c.table.inUse).2.table = c.table := rfl
    generalize c.draw c.table.inUse = p at less drawn same ⊢
    obtain ⟨r, d⟩ := p
    dsimp only at less drawn same ⊢
    rw [same]
    cases e : bucketOf c.table (List.range liveBuckets) r with
    | none =>
      have := isSome_bucketOf (a := c.table) (sum ▸ less)
      rw [e] at this
      cases this
    | some k =>
      obtain ⟨mem, pos⟩ := bucketOf_eq_some e
      have front : (c.table.bucket k).chain.front = (seqs k).head? :=
        (strung.family.represents k).front_eq
      dsimp only
      rw [front]
      rw [strung.count_eq] at pos
      cases hs : seqs k with
      | nil => simp [hs] at pos
      | cons i s =>
        refine ⟨⟨drawn.setCursor_none k, fun choice e => ?_⟩, fun _ => rfl⟩
        cases e
        exact ⟨k, List.mem_range.mp mem, by simp [hs]⟩

theorem Fit.fifoRun {c : Chooser} (h : c.Fit seqs a) (pos : 0 < n) (tries : Nat) :
    Chose seqs n a (c.fifoRun n tries) := by
  induction tries generalizing c with
  | zero => exact h.oldest.1
  | succ tries ih =>
    obtain ⟨l, s, hs, e⟩ := h.start_eq c.turn
    have run := h.settled.strung.run_eq hs n
    have mergeable := h.settled.strung.mergeable_iff hs n
    unfold Chooser.fifoRun
    dsimp only
    rw [e, run]
    dsimp only
    split
    · rename_i can
      have lt : n < s.length := by
        rcases mergeable.mp can with zero | lt
        · omega
        · exact lt
      have legal := h.settled.strung.legal_take hs h.turn lt
      have after : ∀ j, (s.drop n).head? = some j → j ∈ seqs c.turn := by
        intro j hj
        rw [hs]
        exact List.mem_append_right l (List.mem_of_mem_drop (List.mem_of_head? hj))
      split
      · exact ⟨h.setCursor after, fun choice e => by cases e; exact legal⟩
      · exact ⟨⟨(h.setCursor_none c.turn).settled, nextTurn_lt _⟩, fun choice e => by cases e; exact legal⟩
    · exact ih ⟨(h.setCursor_none c.turn).settled, nextTurn_lt _⟩

theorem Fit.weightedBucket {c : Chooser} (h : c.Fit seqs a) (pos : 0 < n) {ks : List Nat}
    (live : ∀ k ∈ ks, k < liveBuckets) (r : Nat) :
    (c.weightedBucket n ks r).2.Fit seqs a ∧ ∀ k i, (c.weightedBucket n ks r).1 = some (k, i) →
      k < liveBuckets ∧ ∃ l s, seqs k = l ++ s ∧ s.head? = some i ∧ n < s.length := by
  induction ks generalizing c r with
  | nil => exact ⟨h, nofun⟩
  | cons k ks ih =>
    have live' : ∀ m ∈ ks, m < liveBuckets := fun m hm => live m (List.mem_cons_of_mem k hm)
    obtain ⟨l, s, hs, e⟩ := h.start_eq k
    have mergeable := h.settled.strung.mergeable_iff hs n
    unfold Chooser.weightedBucket
    dsimp only
    split
    · exact ih h live' r
    · split
      · exact ih h live' _
      · rw [e]
        split
        · rename_i can
          have lt : n < s.length := by
            rcases mergeable.mp can with zero | lt
            · omega
            · exact lt
          refine ⟨h, fun m i found => ?_⟩
          obtain ⟨j, hj, same⟩ := Option.map_eq_some_iff.mp found
          cases same
          exact ⟨live k List.mem_cons_self, l, s, hs, hj, lt⟩
        · exact ih (h.setCursor_none k) live' r

theorem Fit.weightedRun {c : Chooser} (h : c.Fit seqs a) (pos : 0 < n) :
    Chose seqs n a (c.weightedRun n) := by
  unfold Chooser.weightedRun
  split
  · exact ⟨h, nofun⟩
  · have drawn := h.draw c.table.inUse
    generalize c.draw c.table.inUse = p at drawn ⊢
    obtain ⟨r, d⟩ := p
    dsimp only at drawn ⊢
    have live : ∀ k ∈ List.range liveBuckets ++ List.range liveBuckets, k < liveBuckets := by
      intro k hk
      rcases List.mem_append.mp hk with hk | hk
      · exact List.mem_range.mp hk
      · exact List.mem_range.mp hk
    obtain ⟨fit, found⟩ := drawn.weightedBucket pos live r
    generalize d.weightedBucket n (List.range liveBuckets ++ List.range liveBuckets) r = q
      at fit found ⊢
    obtain ⟨o, e⟩ := q
    dsimp only at fit found ⊢
    cases o with
    | none => exact fit.oldest.1
    | some ki =>
      obtain ⟨k, i⟩ := ki
      obtain ⟨hk, l, s, hs, head, lt⟩ := found k i rfl
      have run := fit.settled.strung.run_eq hs n
      rw [head] at run
      dsimp only
      rw [run]
      refine ⟨fit.setCursor fun j hj => ?_, fun choice e => ?_⟩
      · split at hj
        · rw [hs]
          exact List.mem_append_right l (List.mem_of_mem_drop (List.mem_of_head? hj))
        · cases hj
      · cases e
        exact fit.settled.strung.legal_take hs hk lt

theorem Fit.randomRun {c : Chooser} (h : c.Fit seqs a) (pos : 0 < n) (tries : Nat) :
    Chose seqs n a (c.randomRun n tries) := by
  induction tries generalizing c with
  | zero => exact h.oldest.1
  | succ tries ih =>
    have turned : Fit seqs a { c with turn := nextTurn c.turn } := ⟨h.settled, nextTurn_lt _⟩
    unfold Chooser.randomRun
    dsimp only
    split
    · exact ih turned
    · have drawn := turned.draw (c.table.count c.turn - n)
      have same : (Chooser.draw { c with turn := nextTurn c.turn }
        (c.table.count c.turn - n)).2.table = c.table := rfl
      generalize Chooser.draw { c with turn := nextTurn c.turn } (c.table.count c.turn - n) = p
        at drawn same ⊢
      obtain ⟨offset, d⟩ := p
      dsimp only at drawn same ⊢
      have hs : seqs c.turn = (seqs c.turn).take offset ++ (seqs c.turn).drop offset :=
        (List.take_append_drop ..).symm
      have start : (d.table.chainOf c.turn)[offset]? = ((seqs c.turn).drop offset).head? := by
        rw [drawn.settled.strung.chainOf_eq, List.head?_drop]
      rw [start]
      have run := drawn.settled.strung.run_eq hs n
      have mergeable := drawn.settled.strung.mergeable_iff hs n
      rw [run]
      split
      · rename_i can
        refine ⟨drawn, fun choice e => ?_⟩
        cases e
        have lt : n < ((seqs c.turn).drop offset).length := by
          rcases mergeable.mp can with zero | lt
          · omega
          · exact lt
        exact drawn.settled.strung.legal_take hs h.turn lt
      · exact ih drawn

theorem Fit.takeRanked {c : Chooser} (h : c.Fit seqs a) {rule : RankedRule} {i : Slot} {s : Segment}
    {p : Nat} (pos : 0 < rule.length) (hs : c.table.get? i = some s) (hp : s.rank = some p)
    (can : c.table.mergeable rule.consecutive rule.length (some i) = true) :
    Chose seqs rule.length a (c.takeRanked rule i) := by
  have strung := h.settled.strung
  have home : i ∈ seqs s.bucket := (strung.mem_iff _ i).mpr ⟨s, hs, rfl⟩
  have away := h.settled.ranked.live i s hs (by rw [hp]; rfl)
  have le := (strung.listed).bucket_lt hs
  have hk : s.bucket < liveBuckets := Nat.lt_of_le_of_ne le away
  have legal : (Choice.merge (c.table.run rule.consecutive rule.length (some i)).1).Legal seqs
      rule.length := by
    have length := c.table.length_run_of_mergeable rule.consecutive rule.length (some i) can
    cases order : rule.consecutive with
    | true =>
      rw [order] at can
      obtain ⟨l, r, split⟩ := List.append_of_mem home
      have run := strung.run_eq split rule.length
      rw [List.head?_cons] at run
      rw [run]
      refine strung.legal_take split hk ?_
      rcases (strung.mergeable_iff split rule.length).mp can with zero | lt
      · omega
      · exact lt
    | false =>
      rw [order] at can length
      obtain ⟨nodup, along⟩ := h.settled.ranked.run_spec hs hp can
      refine ⟨length, nodup, s.bucket, hk, fun j hj => ?_⟩
      obtain ⟨u, q, hu, same, -, -, next⟩ := along j hj
      have mem : j ∈ seqs s.bucket := (strung.mem_iff _ j).mpr ⟨u, hu, same⟩
      exact ⟨mem, strung.getLast?_ne mem next⟩
  unfold Chooser.takeRanked
  rw [hs]
  refine ⟨⟨(h.settled.clearRanks _).modifyBucket rfl ?_, h.turn⟩, fun choice e => by cases e; exact legal⟩
  exact (h.settled.clearRanks _).strung.cursor s.bucket

theorem Fit.giveUp {c : Chooser} (h : c.Fit seqs a) {first : Slot}
    (live : ∃ k < liveBuckets, first ∈ seqs k) : Chose seqs n a (c.giveUp first) := by
  unfold Chooser.giveUp
  cases hs : c.table.get? first with
  | none => exact ⟨h, nofun⟩
  | some s =>
    have cleared := (h.settled.modifyBucket (k := s.bucket)
      (f := fun b => { b with rankedHead := none, rankedTail := none }) rfl
      (h.settled.strung.cursor s.bucket)).clearRank first
    exact ⟨⟨cleared.reposition none, h.turn⟩, fun choice e => by cases e; exact live⟩

theorem Fit.search {c : Chooser} (h : c.Fit seqs a) {rule : RankedRule} (pos : 0 < rule.length)
    (left position : Nat) {first : Option Slot}
    (live : ∀ i, first = some i → ∃ k < liveBuckets, i ∈ seqs k) :
    Chose seqs rule.length a (c.search rule left position first) := by
  induction left generalizing c position first with
  | zero => exact (h.setPosition none).oldest.1
  | succ left ih =>
    unfold Chooser.search
    cases slot : c.table.ranking.slots[position]? with
    | none => exact (h.setPosition none).oldest.1
    | some o =>
      cases o with
      | none => exact ih h (position + 1) live
      | some i =>
        obtain ⟨s, hs, hp⟩ := h.settled.ranked.slots position i slot
        have strung := h.settled.strung
        have home : i ∈ seqs s.bucket := (strung.mem_iff _ i).mpr ⟨s, hs, rfl⟩
        have away := h.settled.ranked.live i s hs (by rw [hp]; rfl)
        have le := strung.listed.bucket_lt hs
        have self : ∃ k < liveBuckets, i ∈ seqs k := ⟨s.bucket, Nat.lt_of_le_of_ne le away, home⟩
        have live' : ∃ k < liveBuckets, first.getD i ∈ seqs k := by
          cases first with
          | none => exact self
          | some j => exact live j rfl
        dsimp only
        split
        · rename_i can
          refine (h.setPosition (some (position + 1))).takeRanked pos hs hp ?_
          exact (c.table.mergeable_rank _ _ _ _).trans can
        · split
          · exact h.giveUp live'
          · refine ih (c := { c with table := _ }) ⟨h.settled.clearRank i, h.turn⟩ (position + 1)
              fun j e => ?_
            rw [← Option.some.inj e]
            exact live'

theorem Fit.rankedRun {c : Chooser} (h : c.Fit seqs a) (rule : RankedRule) (pos : 0 < rule.length) :
    Chose seqs rule.length a (c.rankedRun rule) := by
  unfold Chooser.rankedRun
  cases c.table.ranking.position with
  | none => exact h.oldest.1
  | some p => exact h.search pos _ p nofun

end
end Chooser

namespace Cache
open Regression
variable {μ : Type} [Regressor μ] {seqs : Nat → List Slot}

/-- What is chosen is legal, and something is chosen as long as a segment is live. -/
theorem settles_choose (c : Cache μ) (strung : c.contents.table.Strung seqs none)
    (ranked : c.contents.table.Ranked) (turn : c.turn < liveBuckets) (pos : 0 < c.config.mergeCount) :
    Settles t c.choose fun p => ∃ h : Chooser, p.2 = c.withChooser h ∧
      h.Fit seqs c.contents.table ∧
      (∀ choice, p.1 = some choice → choice.Legal seqs c.config.mergeCount) ∧
      (0 < c.contents.table.inUse → p.1.isSome) := by
  have fit : ∀ table, Table.Settled seqs c.contents.table table →
      (c.chooser table).Fit seqs c.contents.table := fun table settled => ⟨settled, turn⟩
  have self := fit c.contents.table (.refl strung ranked)
  have chosen : ∀ p : Option Choice × Chooser,
      Chooser.Chose seqs c.config.mergeCount c.contents.table p →
      ∃ h : Chooser, c.withChooser (Chooser.orOldest p).2 = c.withChooser h ∧
        h.Fit seqs c.contents.table ∧
        (∀ choice, (Chooser.orOldest p).1 = some choice → choice.Legal seqs c.config.mergeCount) ∧
        (0 < c.contents.table.inUse → (Chooser.orOldest p).1.isSome) := by
    intro p chose
    unfold Chooser.orOldest
    split
    · rename_i made
      exact ⟨p.2, rfl, chose.fit, chose.legal, fun _ => made⟩
    · obtain ⟨last, some⟩ := chose.fit.oldest (n := c.config.mergeCount)
      have inUse := chose.fit.settled.inUse_eq strung
      exact ⟨_, rfl, last.fit, last.legal, fun pos => some (inUse ▸ pos)⟩
  unfold choose
  dsimp only
  cases c.selection with
  | fifo => exact settles_pure (chosen _ (self.fifoRun pos _))
  | weightedFifo => exact settles_pure (chosen _ (self.weightedRun pos))
  | random => exact settles_pure (chosen _ (self.randomRun pos _))
  | learned =>
    dsimp only
    refine settles_bind (c.settles_rankedTable strung ranked) fun table settled => ?_
    exact settles_pure (chosen _ ((fit table settled).rankedRun
      ⟨c.config.mergeCount, c.config.consecutive, c.config.fallbackFraction⟩ pos))

end Cache
end CacheReplay.GLCache
