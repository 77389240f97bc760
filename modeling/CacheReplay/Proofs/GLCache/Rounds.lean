import CacheReplay.Proofs.GLCache.Consolidation
import CacheReplay.Proofs.GLCache.Cursors
import CacheReplay.Proofs.GLCache.Endurance

set_option autoImplicit false

namespace CacheReplay.GLCache
open Regression

/-- Segments that follow each other in a live bucket and of which none is the last there. -/
def Stretch (seqs : Nat → List Slot) (n : Nat) (run : List Slot) : Prop :=
  ∃ k < liveBuckets, ∃ l r, seqs k = l ++ run ++ r ∧ r ≠ [] ∧ run.length = n

theorem stretch_take {seqs : Nat → List Slot} {n k : Nat} (hk : k < liveBuckets) {l s : List Slot}
    (hs : seqs k = l ++ s) (hn : n < s.length) : Stretch seqs n (s.take n) := by
  refine ⟨k, hk, l, s.drop n, ?_, ?_, List.length_take_of_le (Nat.le_of_lt hn)⟩
  · rw [List.append_assoc, List.take_append_drop, hs]
  · rw [← List.length_pos_iff, List.length_drop]
    omega

/-- What is chosen: a run where there is one, else an oldest segment where there is any. -/
inductive Picks (seqs : Nat → List Slot) (n : Nat) : Option Choice → Prop
  | run {run : List Slot} (stretch : Stretch seqs n run) : Picks seqs n (some (.merge run))
  | oldest {k i : Slot} {s : List Slot} (small : ∀ k < liveBuckets, (seqs k).length ≤ n)
      (hk : k < liveBuckets) (front : seqs k = i :: s) : Picks seqs n (some (.single i))
  | nothing (empty : ∀ k < liveBuckets, seqs k = []) : Picks seqs n none

namespace Chooser
variable {seqs : Nat → List Slot} {a : Table} {n : Nat} {c : Chooser}

theorem front_of_oldest {choice : Choice} (e : c.oldest.1 = some choice) :
    ∃ k < liveBuckets, (c.table.bucket k).chain.front.map .single = some choice := by
  unfold oldest at e
  split at e
  · cases e
  · dsimp only at e
    split at e
    · cases e
    · rename_i k found
      exact ⟨k, List.mem_range.mp (bucketOf_eq_some found).1, e⟩

theorem start_of_not_partway {k : Nat} (clear : k ∉ c.table.partway) :
    c.start k = (c.table.bucket k).chain.front := by
  rw [Table.mem_partway, Option.not_isSome_iff_eq_none] at clear
  rw [start, clear, Option.none_or]

/-- How a search ends: with a run, or with an oldest segment after it has passed all it could. -/
inductive Searched (seqs : Nat → List Slot) (n : Nat) (a : Table) (passed : Prop) :
    Option Choice × Chooser → Prop
  | found {run : List Slot} {d : Chooser} (stretch : Stretch seqs n run) :
      Searched seqs n a passed (some (.merge run), d)
  | past {d : Chooser} (fit : d.Fit seqs a) (all : passed) : Searched seqs n a passed d.oldest

theorem Searched.imp {passed more : Prop} {p : Option Choice × Chooser} (search : Searched seqs n a passed p)
    (imp : passed → more) : Searched seqs n a more p := by
  cases search with
  | found stretch => exact .found stretch
  | past fit all => exact .past fit (imp all)

namespace Fit
variable (h : c.Fit seqs a)
include h

theorem fronts_oldest : (∃ k < liveBuckets, ∃ i s, seqs k = i :: s ∧ c.oldest.1 = some (.single i)) ∨
    c.oldest.1 = none ∧ ∀ k < liveBuckets, seqs k = [] := by
  have strung := h.settled.strung
  cases e : c.oldest.1 with
  | none =>
    have idle : c.table.inUse = 0 := by
      by_contra some
      have chosen := (h.oldest (n := 0)).2 (Nat.pos_of_ne_zero some)
      rw [e] at chosen
      cases chosen
    refine .inr ⟨rfl, fun k hk => List.eq_nil_of_length_eq_zero ?_⟩
    have le := strung.counted.length_le hk
    omega
  | some choice =>
    obtain ⟨k, hk, front⟩ := front_of_oldest e
    have first : (c.table.bucket k).chain.front = (seqs k).head? := (strung.family.represents k).front_eq
    rw [first] at front
    cases hs : seqs k with
    | nil =>
      rw [hs] at front
      cases front
    | cons i s =>
      rw [hs] at front
      cases front
      exact .inl ⟨k, hk, i, s, hs, rfl⟩

theorem picks_oldest (small : ∀ k < liveBuckets, (seqs k).length ≤ n) : Picks seqs n c.oldest.1 := by
  rcases h.fronts_oldest with ⟨k, hk, i, s, front, e⟩ | ⟨e, empty⟩
  · exact e ▸ .oldest small hk front
  · exact e ▸ .nothing empty

/-- A bucket is passed in turn only if it holds no run, or because of a cursor that it then loses. -/
theorem searched_fifoRun (pos : 0 < n) (tries : Nat) :
    Searched seqs n a (∀ k m, m < tries → (c.turn + m) % liveBuckets = k →
      k ∉ c.table.partway ∨ k = c.turn ∧ 0 < m → (seqs k).length ≤ n) (c.fifoRun n tries) := by
  induction tries generalizing c with
  | zero => exact .past h nofun
  | succ tries ih =>
    have strung := h.settled.strung
    obtain ⟨l, s, hs, start⟩ := h.start_eq c.turn
    unfold Chooser.fifoRun
    dsimp only
    split
    · rename_i can
      rw [start] at can
      have long : n < s.length := by
        rcases (strung.mergeable_iff hs n).mp can with zero | long
        · omega
        · exact long
      have stretch := stretch_take h.turn hs long
      rw [start, strung.run_eq hs n]
      dsimp only
      split
      · exact .found stretch
      · exact .found stretch
    · rename_i cannot
      have next : Fit seqs a { c.setCursor c.turn none with turn := nextTurn c.turn } :=
        ⟨(h.setCursor_none c.turn).settled, nextTurn_lt _⟩
      refine (ih next).imp fun small k m hm at_k clear => ?_
      have turn := h.turn
      unfold liveBuckets at turn at_k
      cases m with
      | zero =>
        have here : k = c.turn := by omega
        subst here
        have clear := clear.resolve_right fun again => Nat.lt_irrefl 0 again.2
        have front : c.start c.turn = (seqs c.turn).head? :=
          (start_of_not_partway clear).trans (strung.family.represents c.turn).front_eq
        rw [front, strung.mergeable_iff (l := []) rfl n] at cannot
        omega
      | succ m =>
        refine small k m (Nat.lt_of_succ_lt_succ hm) ?_ (.inl fun hk => ?_)
        · unfold nextTurn liveBuckets
          dsimp only
          omega
        · obtain ⟨before, apart⟩ := c.partway_setCursor_none c.turn hk
          rcases clear with clear | again
          · exact clear before
          · exact apart again.1

theorem searched_randomRun (tries : Nat) :
    Searched seqs n a (∀ m < tries, (seqs ((c.turn + m) % liveBuckets)).length ≤ n)
      (c.randomRun n tries) := by
  induction tries generalizing c with
  | zero => exact .past h nofun
  | succ tries ih =>
    have turned : Fit seqs a { c with turn := nextTurn c.turn } := ⟨h.settled, nextTurn_lt _⟩
    have count := h.settled.strung.count_eq c.turn
    unfold Chooser.randomRun
    dsimp only
    split
    · rename_i few
      refine (ih turned).imp fun small m hm => ?_
      have turn := h.turn
      cases m with
      | zero =>
        rw [Nat.add_zero, Nat.mod_eq_of_lt turn, ← count]
        exact few
      | succ m =>
        have at_m : (nextTurn c.turn + m) % liveBuckets = (c.turn + (m + 1)) % liveBuckets := by
          unfold nextTurn liveBuckets
          omega
        rw [← at_m]
        exact small m (Nat.lt_of_succ_lt_succ hm)
    · rename_i large
      have drawn := turned.draw (c.table.count c.turn - n)
      have less : (Chooser.draw { c with turn := nextTurn c.turn } (c.table.count c.turn - n)).1 <
          c.table.count c.turn - n := Randomness.Generator.below32_lt (by omega) c.random
      generalize Chooser.draw { c with turn := nextTurn c.turn } (c.table.count c.turn - n) = p
        at drawn less ⊢
      obtain ⟨offset, d⟩ := p
      dsimp only at drawn less ⊢
      have strung := drawn.settled.strung
      have hs : seqs c.turn = (seqs c.turn).take offset ++ (seqs c.turn).drop offset :=
        (List.take_append_drop ..).symm
      have start : (d.table.chainOf c.turn)[offset]? = ((seqs c.turn).drop offset).head? := by
        rw [strung.chainOf_eq, List.head?_drop]
      have long : n < ((seqs c.turn).drop offset).length := by
        rw [List.length_drop]
        omega
      rw [start, strung.run_eq hs n, if_pos ((strung.mergeable_iff hs n).mpr (.inr long))]
      exact .found (stretch_take h.turn hs long)

end Fit

/-- Where nothing was chosen for want of segments a second attempt changes nothing. -/
theorem Fit.orOldest_eq {p : Option Choice × Chooser} (h : p.2.Fit seqs a)
    (empty : p.1 = none → ∀ k < liveBuckets, seqs k = []) : Chooser.orOldest p = p := by
  unfold Chooser.orOldest
  split
  · rfl
  · rename_i nothing
    have e := Option.not_isSome_iff_eq_none.mp nothing
    have idle : p.2.table.inUse = 0 := by
      rw [h.settled.strung.counted.inUse]
      refine Finset.sum_eq_zero fun k hk => ?_
      rw [empty e k (Finset.mem_range.mp hk)]
      rfl
    unfold Chooser.oldest
    rw [if_pos idle, ← e]

theorem Searched.picks {passed : Prop} {p : Option Choice × Chooser} (search : Searched seqs n a passed p)
    (all : passed → ∀ k < liveBuckets, (seqs k).length ≤ n) : Picks seqs n (orOldest p).1 := by
  cases search with
  | found stretch => exact .run stretch
  | past fit last =>
    unfold orOldest
    split
    · exact fit.picks_oldest (all last)
    · exact (fit.oldest (n := n)).1.fit.picks_oldest (all last)

/-- Every bucket has its turn within as many tries as there are buckets, and one more if it is the first. -/
theorem Fit.picks_fifoRun (h : c.Fit seqs a) (pos : 0 < n) (turns : c.InTurn) :
    Picks seqs n (orOldest (c.fifoRun n (liveBuckets + 2))).1 := by
  refine (h.searched_fifoRun pos _).picks fun small k hk => ?_
  have turn := h.turn
  by_cases e : k = c.turn
  · refine small k liveBuckets (by omega) ?_ (.inr ⟨e, by omega⟩)
    rw [Nat.add_mod_right, Nat.mod_eq_of_lt turn, e]
  · refine small k ((k + (liveBuckets - c.turn)) % liveBuckets) ?_ ?_ (.inl fun hk => e (turns hk))
    · unfold liveBuckets
      omega
    · unfold liveBuckets at hk turn ⊢
      omega

theorem Fit.picks_randomRun (h : c.Fit seqs a) :
    Picks seqs n (orOldest (c.randomRun n (liveBuckets + 1))).1 := by
  refine (h.searched_randomRun _).picks fun small k hk => ?_
  have turn := h.turn
  have at_k : (c.turn + (k + (liveBuckets - c.turn)) % liveBuckets) % liveBuckets = k := by
    unfold liveBuckets at hk turn ⊢
    omega
  rw [← at_k]
  refine small _ ?_
  unfold liveBuckets
  omega

end Chooser

namespace Table

theorem filter_map_stretch {l run r : List Slot} {target : Slot} (nodup : (l ++ run ++ r).Nodup)
    (ne : run ≠ []) (apart : target ∉ run) :
    ((l ++ run ++ r).map fun p => if run.head? = some p then target else p).filter (· ∉ run) =
      l ++ target :: r := by
  obtain ⟨p, rest, rfl⟩ := List.exists_cons_of_ne_nil ne
  have parts := List.nodup_append'.mp nodup
  have left := List.nodup_append'.mp parts.1
  have before : ∀ q ∈ l, q ∉ p :: rest := fun q hq mem => left.2.2 hq mem
  have behind : ∀ q ∈ r, q ∉ p :: rest := fun q hq mem => parts.2.2 (List.mem_append_right l mem) hq
  have placed : ∀ s : List Slot, p ∉ s → (s.map fun q => if some p = some q then target else q) = s := by
    intro s out
    conv_rhs => rw [← List.map_id s]
    refine List.map_congr_left fun q hq => if_neg fun e => out ?_
    rw [Option.some.inj e]
    exact hq
  have kept : ∀ s : List Slot, (∀ q ∈ s, q ∉ p :: rest) → s.filter (· ∉ p :: rest) = s := fun s out =>
    List.filter_eq_self.mpr fun q hq => decide_eq_true (out q hq)
  have gone : rest.filter (· ∉ p :: rest) = [] :=
    List.filter_eq_nil_iff.mpr fun q hq => by simp [hq]
  rw [List.head?_cons, List.map_append, List.map_append, List.map_cons, if_pos rfl,
    placed l fun mem => before p mem List.mem_cons_self, placed r fun mem => behind p mem List.mem_cons_self,
    placed rest (List.nodup_cons.mp left.2.1).1, List.filter_append, List.filter_append, kept l before,
    kept r behind, List.filter_cons, if_pos (decide_eq_true apart), gone, List.append_assoc]
  rfl

end Table

namespace Contents
variable {c d : Contents} {m : Moment}

structure Cedes (ps : List Slot) (target : Option Slot) (c d : Contents) : Prop where
  others : ∀ i r, c.store.live? i = some r → r.tag.segment ∉ ps → d.store.live? i = some r
  live : ∀ i r, d.store.live? i = some r → c.store.live? i = some r ∧ r.tag.segment ∉ ps ∨
    target = some r.tag.segment ∧ ∃ u, c.store.live? i = some u ∧ u.tag.segment ∈ ps

/-- One new segment stands where `n` segments of a live bucket were, in front of the last one there. -/
def Merges (n : Nat) (c d : Contents) : Prop :=
  ∃ k < liveBuckets, ∃ l run r target, c.table.chainOf k = l ++ run ++ r ∧ r ≠ [] ∧ run.length = n ∧
    c.table.get? target = none ∧ d.table.chainOf k = l ++ target :: r ∧
    (∀ m < liveBuckets, m ≠ k → d.table.chainOf m = c.table.chainOf m) ∧ Cedes run (some target) c d

def Drops (c d : Contents) : Prop :=
  ∃ k < liveBuckets, ∃ i, c.table.chainOf k = i :: d.table.chainOf k ∧
    (∀ m < liveBuckets, m ≠ k → d.table.chainOf m = c.table.chainOf m) ∧ Cedes [i] none c d

theorem Merges.exists_count {n : Nat} (h : Merges n c d) (strung : c.table.Strung c.table.chainOf none) :
    ∃ k < liveBuckets, n < c.table.count k := by
  obtain ⟨k, hk, l, run, r, -, chain, more, length, -⟩ := h
  refine ⟨k, hk, ?_⟩
  have pos := List.length_pos_iff.mpr more
  rw [strung.count_eq, chain, List.length_append, List.length_append, length]
  omega

theorem Consolidated.cedes {k target : Slot} {run : List Slot} {scores : List Float} {cutoff : Float}
    {y : Yield} (done : c.Consolidated k run scores cutoff m target y d) (h : c.Sound)
    (group : c.table.Group run k) : Cedes run (some target) c d := by
  have listed : ∀ i r, c.store.live? i = some r →
      (i ∈ run.flatMap c.table.objectsOf ↔ r.tag.segment ∈ run) := by
    intro i r hr
    rw [List.mem_flatMap]
    constructor
    · rintro ⟨p, hp, hi⟩
      obtain ⟨u, hu, rfl⟩ := (h.listed group hp i).mp hi
      cases hr.symm.trans hu
      exact hp
    · exact fun mem => ⟨_, mem, (h.listed group mem i).mpr ⟨r, hr, rfl⟩⟩
  constructor
  · intro i r hr away
    have out := mt (listed i r hr).mp away
    rw [done.live, if_neg fun kept => out (mem_of_mem_survivors kept), if_neg out]
    exact hr
  · intro i r hr
    rw [done.live] at hr
    split at hr
    · rename_i kept
      obtain ⟨u, hu, rfl⟩ := Option.map_eq_some_iff.mp hr
      exact .inr ⟨rfl, u, hu, (listed i u hu).mp (mem_of_mem_survivors kept)⟩
    · split at hr
      · cases hr
      · rename_i out
        exact .inl ⟨hr, mt (listed i r hr).mpr out⟩

theorem Consolidated.merges {k target : Slot} {run l r : List Slot} {scores : List Float} {cutoff : Float}
    {y : Yield} (done : c.Consolidated k run scores cutoff m target y d) (h : c.Sound)
    (group : c.table.Group run k) (chain : c.table.chainOf k = l ++ run ++ r) (more : r ≠ []) :
    Merges run.length c d := by
  have rewired := done.rewired
  have apart : target ∉ run := by
    intro mem
    obtain ⟨s, hs, -⟩ := group.exists_segment h.strung mem
    cases hs.symm.trans rewired.fresh
  have nodup := (h.strung.family.represents k).nodup
  rw [chain] at nodup
  have after : d.table.chainOf k = l ++ target :: r := by
    rw [rewired.chain, chain, Table.filter_map_stretch nodup group.ne apart]
  have elsewhere : ∀ j < liveBuckets, j ≠ k → d.table.chainOf j = c.table.chainOf j := fun j hj other =>
    (rewired.elsewhere j other (Nat.ne_of_lt hj)).1
  exact ⟨k, group.live, l, run, r, target, chain, more, rfl, rewired.fresh, after, elsewhere,
    done.cedes h group⟩

theorem Evicts.drops {k i : Slot} {n : Nat} (done : Evicts [i] n c d) (h : c.Sound) (hk : k < liveBuckets)
    (front : c.table.chainOf k = i :: d.table.chainOf k)
    (elsewhere : ∀ j < liveBuckets, j ≠ k → d.table.chainOf j = c.table.chainOf j) : Drops c d := by
  have first : i ∈ c.table.chainOf k := by
    rw [front]
    exact List.mem_cons_self
  have nodup := (h.strung.family.represents k).nodup
  rw [front] at nodup
  have stays : ∀ j < liveBuckets, ∀ p ∈ d.table.chainOf j, p ∈ c.table.chainOf j ∧ p ≠ i := by
    intro j hj p hp
    by_cases e : j = k
    · subst e
      rw [front]
      exact ⟨List.mem_cons_of_mem i hp, fun same => (List.nodup_cons.mp nodup).1 (same ▸ hp)⟩
    · rw [elsewhere j hj e] at hp
      exact ⟨hp, fun same => e (h.strung.family.disjoint j k i (same ▸ hp) first)⟩
  refine ⟨k, hk, i, front, elsewhere, done.sheds.others, fun j r hr => .inl ?_⟩
  obtain ⟨g, hg, home, -⟩ := done.sound.segment_of_live hr
  have live : g.bucket < liveBuckets := Nat.lt_of_le_of_ne (done.sound.strung.bucket_lt hg) home
  have mem := (done.sound.strung.mem_iff _ _).mpr ⟨g, hg, rfl⟩
  obtain ⟨before, apart⟩ := stays _ live _ mem
  obtain ⟨u, hu, -⟩ := (h.strung.mem_iff _ _).mp before
  refine ⟨(done.moved j r hr).resolve_right fun fresh => ?_, mt List.mem_singleton.mp apart⟩
  cases hu.symm.trans fresh.1

theorem Sound.settles_evictSegment_chains (h : c.Sound) {p k : Slot} (hk : k < liveBuckets)
    (hp : p ∈ c.table.chainOf k) : Settles .any (c.evictSegment p m) fun q =>
      q.2.table.chainOf k = (c.table.chainOf k).erase p ∧
        ∀ j < liveBuckets, j ≠ k → q.2.table.chainOf j = c.table.chainOf j := by
  obtain ⟨s, hs, at_k⟩ := (h.strung.mem_iff k p).mp hp
  have home : s.bucket ≠ quarantine := by
    rw [at_k]
    exact Nat.ne_of_lt hk
  unfold evictSegment
  rw [hs]
  have stripped := Table.Stripped.of_modify h.strung h.ranked hs
    (f := fun s => { s with objects := #[], active := 0 }) ⟨rfl, rfl⟩ ⟨rfl, rfl⟩ ⟨rfl, rfl⟩
  have chains := (h.strung.modify p (f := fun s => { s with objects := #[], active := 0 })
    fun _ _ => ⟨rfl, rfl⟩).chainOf_eq
  have once := Table.modify_modify c.table p (fun s => { s with objects := #[] }) fun s =>
    { s with active := 0 }
  dsimp only at once
  apply settles_bind (settles_dropAll_table _ _ _)
  intro q same
  dsimp only [takeObjects] at same ⊢
  rw [once] at same
  rw [← same] at stripped chains
  obtain ⟨u, hu, at_home, -⟩ := stripped.segment
  apply settles_bind (yields_retireOrFree q.2.1 m stripped.strung stripped.ranked hu
    (by rw [at_home]; exact home)).settles
  intro d done
  obtain ⟨-, -, vacated⟩ := done
  rw [← at_k]
  rw [← at_home]
  refine settles_pure ⟨?_, fun j hj apart => ?_⟩
  · rw [vacated.chain, chains]
  · rw [vacated.elsewhere j apart (Nat.ne_of_lt hj), chains]

end Contents

namespace Cache
variable {μ : Type}

structure Merged (c d : Cache μ) : Prop where
  contents : Contents.Merges c.config.mergeCount c.contents d.contents
  merges : d.tally.merges = c.tally.merges + 1
  singles : d.tally.singles = c.tally.singles

structure Dropped (c d : Cache μ) : Prop where
  contents : Contents.Drops c.contents d.contents
  merges : d.tally.merges = c.tally.merges
  singles : d.tally.singles = c.tally.singles + 1

/-- An eviction merges where a bucket holds a run, and otherwise takes one segment if there is any. -/
structure MergesFirst (c : Cache μ) (p : Bool × Cache μ) : Prop where
  merged : p.1 = true ∧ c.Merged p.2 ↔ ∃ k < liveBuckets, c.config.mergeCount < c.contents.table.count k
  dropped : (∀ k < liveBuckets, c.contents.table.count k ≤ c.config.mergeCount) →
    0 < c.contents.table.inUse → p.1 = true ∧ c.Dropped p.2

theorem settles_countEvicted_counts (tally : Tally) (before after : Account) (objects : Nat) :
    Settles .any (countEvicted tally before after objects) fun u =>
      u.merges = tally.merges ∧ u.singles = tally.singles := by
  apply settles_bind (settles_any _)
  intro freed _
  exact settles_bind (settles_any _) fun bytes _ => settles_pure ⟨rfl, rfl⟩

theorem Sound.settles_evictRun_merged {c : Cache μ} (h : c.Sound) {run : List Slot}
    (stretch : Stretch c.contents.table.chainOf c.config.mergeCount run) :
    Settles .any (c.evictRun run) fun d => c.Merged d := by
  obtain ⟨k, hk, l, r, chain, more, length⟩ := stretch
  have two := (Config.bounds_of_validate h.accepted).2.1
  have nodup := (h.contents.strung.family.represents k).nodup
  rw [chain] at nodup
  have ne : run ≠ [] := by
    rintro rfl
    rw [List.length_nil] at length
    omega
  have group : c.contents.table.Group run k := by
    refine ⟨ne, (List.nodup_append.mp (List.nodup_append.mp nodup).1).2.1, hk, fun p hp => ?_⟩
    rw [chain]
    exact List.mem_append_left r (List.mem_append_right l hp)
  unfold evictRun
  apply settles_bind (settles_any _)
  intro exact _
  generalize (if c.config.jitter = true then disturb exact c.random else (exact, c.random)) = p
  obtain ⟨scores, random⟩ := p
  dsimp only
  apply settles_bind (settles_any _)
  intro bar _
  apply settles_bind (h.contents.settles_consolidated group scores bar c.moment)
  intro q merged
  obtain ⟨target, consolidated⟩ := merged
  apply settles_bind (settles_countEvicted_counts _ _ _ _)
  intro tally counted
  have merges := consolidated.merges h.contents group chain more
  rw [length] at merges
  exact settles_pure ⟨merges, congrArg (· + 1) counted.1, counted.2⟩

theorem Sound.settles_evictSingle_dropped {c : Cache μ} (h : c.Sound) {k i : Slot} {s : List Slot}
    (hk : k < liveBuckets) (front : c.contents.table.chainOf k = i :: s) :
    Settles .any (c.evictSingle i) fun d => c.Dropped d := by
  have mem : i ∈ c.contents.table.chainOf k := by
    rw [front]
    exact List.mem_cons_self
  apply settles_bind (settles_any _)
  intro notice _
  apply settles_bind ((h.contents.settles_evictSegment_chains hk mem).and
    (h.contents.yields_evictSegment hk mem c.moment).settles)
  rintro q ⟨chains, evicts, -⟩
  apply settles_bind (settles_countEvicted_counts _ _ _ _)
  intro tally counted
  have after : c.contents.table.chainOf k = i :: q.2.table.chainOf k := by
    rw [chains.1, front, List.erase_cons_head]
  have drops := evicts.drops h.contents hk after chains.2
  exact settles_pure ⟨drops, counted.1, congrArg (· + 1) counted.2⟩

variable {c : Cache μ}

theorem chainOf_withChooser {chooser : Chooser}
    (fit : chooser.Fit c.contents.table.chainOf c.contents.table) :
    (c.withChooser chooser).contents.table.chainOf = c.contents.table.chainOf :=
  funext fit.settled.strung.chainOf_eq

theorem merged_of_chosen {chooser : Chooser} {d : Cache μ}
    (fit : chooser.Fit c.contents.table.chainOf c.contents.table) (h : (c.withChooser chooser).Merged d) :
    c.Merged d := by
  obtain ⟨⟨k, hk, l, run, r, target, chain, more, length, fresh, after, others, cedes⟩, merges, singles⟩ := h
  rw [chainOf_withChooser fit] at chain others
  exact ⟨⟨k, hk, l, run, r, target, chain, more, length,
    (fit.settled.carried.same.get?_eq_none_iff target).mp fresh, after, others, cedes.others, cedes.live⟩,
    merges, singles⟩

theorem dropped_of_chosen {chooser : Chooser} {d : Cache μ}
    (fit : chooser.Fit c.contents.table.chainOf c.contents.table) (h : (c.withChooser chooser).Dropped d) :
    c.Dropped d := by
  obtain ⟨⟨k, hk, i, front, others, cedes⟩, merges, singles⟩ := h
  rw [chainOf_withChooser fit] at front others
  exact ⟨⟨k, hk, i, front, others, cedes.others, cedes.live⟩, merges, singles⟩

variable [Regressor μ]

theorem Sound.settles_choose_picks (h : c.Sound) (turns : c.InTurn)
    (selects : c.selection = .fifo ∨ c.selection = .random) : Settles .any c.choose fun p =>
      Picks c.contents.table.chainOf c.config.mergeCount p.1 := by
  have pos : 0 < c.config.mergeCount := Nat.lt_of_succ_lt (Config.bounds_of_validate h.accepted).2.1
  have fit : (c.chooser c.contents.table).Fit c.contents.table.chainOf c.contents.table :=
    ⟨.refl h.contents.strung h.contents.ranked, h.turn⟩
  unfold choose
  dsimp only
  rcases selects with fifo | random
  · rw [fifo]
    have prescribed : ∀ s, s = .weightedFifo ∨ s = .random → c.config.selection ≠ some s := by
      intro s other given
      have selected : c.selection = s := by rw [selection, given]
      rw [fifo] at selected
      subst selected
      rcases other with other | other <;> cases other
    exact settles_pure (fit.picks_fifoRun pos (turns (prescribed _ (.inl rfl)) (prescribed _ (.inr rfl))))
  · rw [random]
    exact settles_pure fit.picks_randomRun

theorem Sound.settles_evict_mergesFirst (h : c.Sound) (turns : c.InTurn)
    (selects : c.selection = .fifo ∨ c.selection = .random) : Settles .any c.evict c.MergesFirst := by
  have strung := h.contents.strung
  have two := (Config.bounds_of_validate h.accepted).2.1
  have chosen := c.settles_choose (t := .any) strung h.contents.ranked h.turn (Nat.lt_of_succ_lt two)
  apply settles_bind (chosen.and (h.settles_choose_picks turns selects))
  rintro ⟨choice, e⟩ ⟨⟨chooser, rfl, fit, -⟩, picks⟩
  have sound := h.withChooser fit
  dsimp only at picks ⊢
  cases picks with
  | run stretch =>
    rw [← chainOf_withChooser fit] at stretch
    apply settles_bind (sound.settles_evictRun_merged stretch)
    intro d done
    have merged := merged_of_chosen fit done
    obtain ⟨k, hk, long⟩ := merged.contents.exists_count strung
    exact settles_pure ⟨⟨fun _ => ⟨k, hk, long⟩, fun _ => ⟨rfl, merged⟩⟩,
      fun small => absurd (small k hk) (Nat.not_le_of_gt long)⟩
  | oldest small hk front =>
    rw [← chainOf_withChooser fit] at front
    apply settles_bind (sound.settles_evictSingle_dropped hk front)
    intro d done
    have dropped := dropped_of_chosen fit done
    refine settles_pure ⟨⟨fun merged => ?_, ?_⟩, fun _ _ => ⟨rfl, dropped⟩⟩
    · have once := merged.2.merges
      rw [dropped.merges] at once
      omega
    · rintro ⟨k, hk, long⟩
      rw [strung.count_eq] at long
      exact absurd (small k hk) (Nat.not_le_of_gt long)
  | nothing empty =>
    refine settles_pure ⟨⟨fun merged => absurd merged.1 Bool.false_ne_true, ?_⟩, fun _ live => ?_⟩
    · rintro ⟨k, hk, long⟩
      rw [strung.count_eq, empty k hk] at long
      cases long
    · rw [strung.inUse_eq, Table.live, List.length_pos_iff] at live
      refine absurd (List.flatMap_eq_nil_iff.mpr fun k hk => ?_) live
      exact empty k (List.mem_range.mp hk)

/-- The counters that an eviction moves have room, where no object was hit more than `n` times. -/
structure Leeway (n : Nat) (c : Cache μ) : Prop where
  contents : c.contents.Within n
  moment : c.moment.Dated
  notice : ∀ last, c.lastNotice = some last → InEra last
  bytes : IsWord (c.tally.evictedBytes + c.account.occupied)
  hits : n + 1 < countBound
  segments : c.contents.table.nextId + 1 < countBound

omit [Regressor μ] in
theorem Ranged.leeway {fine : μ → Prop} {hits opens : Nat} (r : c.Ranged fine hits opens)
    (lt : hits < traceBound) (few : opens + 1 < traceBound) : c.Leeway hits where
  contents := r.contents
  moment := r.dated lt
  notice := r.notice
  bytes := by
    have most : opens * countBound ≤ traceBound * countBound := Nat.mul_le_mul_right _ (by omega)
    exact Nat.lt_of_le_of_lt (Nat.le_trans r.bytes most) (by decide)
  hits := Nat.lt_of_le_of_lt (Nat.succ_le_of_lt lt) (by decide)
  segments := by
    have segments := r.segments
    unfold traceBound at few
    unfold countBound
    omega

structure PrefersMerges (c : Cache μ) : Prop where
  settles : c.selection = .fifo ∨ c.selection = .random → ∀ random,
    Settles .arithmetic (evict { c with random }) (MergesFirst { c with random })
  yields : c.selection = .fifo ∨ c.selection = .random → ∀ n, c.Leeway n → ∀ random,
    Yields (evict { c with random }) (MergesFirst { c with random })

theorem Sound.prefersMerges (h : c.Sound) (turns : c.InTurn) : c.PrefersMerges := by
  have sound : ∀ random, Sound { c with random } := fun _ =>
    ⟨h.contents, h.turn, h.accepted, h.segmentSize, h.aligned⟩
  constructor
  · intro selects random
    have first := (sound random).settles_evict_mergesFirst turns selects
    exact ((sound random).settles_evict.also first).mono fun _ done => done.2
  · intro selects n leeway random
    have answers := yields_evict (sound random) leeway.contents leeway.moment leeway.notice leeway.bytes
      leeway.hits leeway.segments
    exact (answers.and ((sound random).settles_evict_mergesFirst turns selects)).mono fun _ done => done.2

open EvictionPolicy

variable {config : Config} (capacity overhead : Nat) (model : μ)

/--
Whatever a run has done before, also while it makes room for an object: as long as buckets are
merged in turn or at random, an eviction merges if and only if some live bucket holds more segments
than a merge takes, and then as many as a merge takes; otherwise it evicts exactly one segment, with
all its objects, if one is live.
-/
theorem run_prefers_merges (accepted : config.validate = .ok ()) (ops : List Operation) :
    Settles (.ofModel μ) (run (ofConfig capacity overhead config model) ops) fun c =>
      (c.config = config ∧ c.PrefersMerges) ∧ ∀ (req : Request) (evictions : Nat),
        Settles (.ofModel μ) (makingRoom c req evictions) fun d => d.config = config ∧ d.PrefersMerges := by
  have dependable := (dependable_ofModel (μ := μ)).keeping (keeps_inTurn config)
  have start := sound_ofConfig capacity overhead model accepted
  apply (dependable.settles_run _ ops ⟨start, rfl, inTurn_ofConfig capacity overhead config model⟩).mono
  intro c h
  refine ⟨⟨h.2.1, h.1.prefersMerges h.2.2⟩, fun req evictions => ?_⟩
  apply (dependable.settles_makingRoom c req evictions h).mono
  exact fun d hd => ⟨hd.2.1, hd.1.prefersMerges hd.2.2⟩

/-- Nine small objects are more than fit in two segments of four, and an eviction can count what it merges. -/
theorem run_prefers_merges_filled :
    Config.validate { Config.defaults with segmentSize := 4, retain := 4, selection := some .fifo } = .ok () ∧
    ∃ c, run (ofConfig 20 0 { Config.defaults with segmentSize := 4, retain := 4, selection := some .fifo }
        (Boosted.unfitted .defaults)) ((List.range 9).map (Operation.get ∘ fun i => .ofId i 1 i)) = .ok c ∧
      c.selection = .fifo ∧ c.Leeway 9 ∧ c.PrefersMerges := by
  have served : Yields (run (ofConfig 20 0 { Config.defaults with
      segmentSize := 4, retain := 4, selection := some .fifo } (Boosted.unfitted .defaults))
      ((List.range 9).map (Operation.get ∘ fun i => .ofId i 1 i))) fun c => c.Ranged _ 9 9 :=
    yields_run_ofConfig rfl (by decide) .stable
  obtain ⟨c, ran, ranged, ⟨config, prefers⟩, -⟩ := served.and (run_prefers_merges 20 0 _ rfl _)
  refine ⟨rfl, c, ran, ?_, ranged.leeway (by decide) (by decide), prefers⟩
  rw [selection, config]

end Cache
end CacheReplay.GLCache
