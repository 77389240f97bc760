import CacheReplay.Proofs.GLCache.Rounds

set_option autoImplicit false

/-!
# Merging in proportion to size

A walk in proportion to size is sent out by a number below that of all live
segments, but only the buckets that are large enough to merge use this number
up. Two laps use up twice the segments of these buckets at the most: a walk that
is sent further merges nothing, although some bucket may hold a run.
-/
namespace CacheReplay.GLCache
open Regression

namespace Table

/-- The segments in some buckets, those with `n` segments or fewer left out. -/
def mass (a : Table) (n : Nat) (ks : List Nat) : Nat := ((ks.filter fun k => n < a.count k).map a.count).sum

/-- The segments of a bucket from its cursor on. -/
def ahead (a : Table) (k : Nat) : List Slot :=
  match (a.bucket k).cursor with
  | none => a.chainOf k
  | some i => (a.chainOf k).dropWhile (· ≠ i)

/-- The buckets in which a walk looks for a run, `r` segments far, as long as it finds none. -/
def stops (a : Table) (n : Nat) : List Nat → Nat → List Nat
  | [], _ => []
  | k :: ks, r =>
    if a.count k ≤ n then a.stops n ks r
    else if a.count k < r then a.stops n ks (r - a.count k)
    else k :: a.stops n ks r

/-- A walk over all buckets, `r` segments far, comes to a run in its first lap or its second. -/
def Reaches (a : Table) (n r : Nat) : Prop :=
  (∃ k < liveBuckets, n < a.count k) ∧ (r ≤ a.mass n (List.range liveBuckets) ∨
    ∃ k ∈ a.stops n (List.range liveBuckets) (r - a.mass n (List.range liveBuckets)), n < (a.ahead k).length)

section
variable {a : Table} {n : Nat} {ks : List Nat} {k : Nat}

theorem mass_cons_of_le (small : a.count k ≤ n) : a.mass n (k :: ks) = a.mass n ks := by
  simp [mass, Nat.not_lt_of_le small]

theorem mass_cons_of_lt (large : n < a.count k) : a.mass n (k :: ks) = a.count k + a.mass n ks := by
  simp [mass, large]

theorem mass_pos_iff : 0 < a.mass n ks ↔ ∃ k ∈ ks, n < a.count k := by
  induction ks with
  | nil => simp [mass]
  | cons k ks ih =>
    by_cases large : n < a.count k
    · rw [mass_cons_of_lt large]
      exact ⟨fun _ => ⟨k, List.mem_cons_self, large⟩, fun _ => by omega⟩
    · rw [mass_cons_of_le (Nat.le_of_not_lt large), ih]
      simp [large]

theorem stops_eq_nil {r : Nat} (far : a.mass n ks < r) : a.stops n ks r = [] := by
  induction ks generalizing r with
  | nil => rfl
  | cons k ks ih =>
    unfold stops
    by_cases small : a.count k ≤ n
    · rw [mass_cons_of_le small] at far
      rw [if_pos small]
      exact ih far
    · rw [mass_cons_of_lt (Nat.lt_of_not_le small)] at far
      rw [if_neg small, if_pos (by omega)]
      exact ih (by omega)

theorem mem_of_mem_stops {r : Nat} (hk : k ∈ a.stops n ks r) : k ∈ ks := by
  induction ks generalizing r with
  | nil => cases hk
  | cons m ks ih =>
    unfold stops at hk
    split at hk
    · exact List.mem_cons_of_mem m (ih hk)
    · split at hk
      · exact List.mem_cons_of_mem m (ih hk)
      · rcases List.mem_cons.mp hk with rfl | hk
        · exact List.mem_cons_self
        · exact List.mem_cons_of_mem m (ih hk)

theorem stops_congr {b : Table} {r : Nat} (same : b.count = a.count) : b.stops n ks r = a.stops n ks r := by
  induction ks generalizing r with
  | nil => rfl
  | cons k ks ih => simp only [stops, same, ih]

end

theorem Strung.ahead_eq {a : Table} {seqs : Nat → List Slot} (h : a.Strung seqs none) (k : Nat) :
    ∃ l, seqs k = l ++ a.ahead k ∧ (a.bucket k).cursor.or (a.bucket k).chain.front = (a.ahead k).head? := by
  unfold ahead
  rw [h.chainOf_eq]
  cases e : (a.bucket k).cursor with
  | none => exact ⟨[], rfl, (h.family.represents k).front_eq⟩
  | some i =>
    obtain ⟨l, r, split, fresh⟩ := List.eq_append_cons_of_mem (h.cursor k i e)
    have passed : (l ++ i :: r).dropWhile (· ≠ i) = i :: r := by
      rw [List.dropWhile_append_of_pos]
      · simp
      · intro j hj
        simpa using fun same : j = i => fresh (same ▸ hj)
    dsimp only
    rw [split, passed]
    exact ⟨l, rfl, rfl⟩

end Table

/-- What is chosen in proportion to size: a run if the walk reaches one, else an oldest segment. -/
inductive Weighs (seqs : Nat → List Slot) (n : Nat) (reaches : Prop) : Option Choice → Prop
  | run {run : List Slot} (reached : reaches) (stretch : Stretch seqs n run) :
      Weighs seqs n reaches (some (.merge run))
  | oldest {k i : Slot} {s : List Slot} (missed : ¬reaches) (hk : k < liveBuckets)
      (front : seqs k = i :: s) : Weighs seqs n reaches (some (.single i))
  | nothing (empty : ∀ k < liveBuckets, seqs k = []) : Weighs seqs n reaches none

namespace Chooser
variable {seqs : Nat → List Slot} {a : Table} {n r : Nat} {c : Chooser} {ks rest : List Nat} {k : Nat}

def Yielding (c : Chooser) (n k : Nat) : Prop := c.table.mergeable true n (c.start k) = true

theorem Fit.yielding_iff (h : c.Fit seqs a) (pos : 0 < n) (k : Nat) :
    c.Yielding n k ↔ n < (c.table.ahead k).length := by
  obtain ⟨l, split, start⟩ := h.settled.strung.ahead_eq k
  have first : c.start k = (c.table.ahead k).head? := start
  rw [Yielding, first, h.settled.strung.mergeable_iff split n]
  exact or_iff_right (Nat.ne_of_gt pos)

theorem Fit.yielding_front (h : c.Fit seqs a) (clear : k ∉ c.table.partway)
    (large : n < c.table.count k) : c.Yielding n k := by
  have front : c.start k = (seqs k).head? :=
    (start_of_not_partway clear).trans (h.settled.strung.family.represents k).front_eq
  rw [h.settled.strung.count_eq] at large
  rw [Yielding, front]
  exact (h.settled.strung.mergeable_iff (l := []) rfl n).mpr (.inr large)

theorem mergeable_setCursor (c : Chooser) (m : Nat) (o : Option Slot) (n : Nat) (i : Option Slot) :
    (c.setCursor m o).table.mergeable true n i = c.table.mergeable true n i := by
  induction n generalizing i with
  | zero => rfl
  | succ n ih =>
    cases i with
    | none => rfl
    | some i =>
      rw [Table.mergeable, Table.mergeable, ih]
      rfl

theorem yielding_setCursor {m : Nat} (apart : m ≠ k) (o : Option Slot) :
    (c.setCursor m o).Yielding n k ↔ c.Yielding n k := by
  have same : (c.setCursor m o).table.bucket k = c.table.bucket k :=
    Table.bucket_modifyBucket_of_ne _ _ apart
  rw [Yielding, Yielding, mergeable_setCursor, start, start, same]

theorem count_setCursor (c : Chooser) (m : Nat) (o : Option Slot) :
    (c.setCursor m o).table.count = c.table.count := by
  funext k
  by_cases e : m = k
  · subst e
    simp only [Table.count, Table.bucket, setCursor, Table.modifyBucket, Array.getElem?_modify, if_true]
    cases c.table.buckets[m]? <;> rfl
  · rw [Table.count, Table.count, setCursor, Table.bucket_modifyBucket_of_ne _ _ e]

/-- A lap that uses up all segments of its large buckets leaves the rest of the walk as it was. -/
theorem weightedBucket_lap (far : c.table.mass n ks < r) :
    c.weightedBucket n (ks ++ rest) r = c.weightedBucket n rest (r - c.table.mass n ks) := by
  induction ks generalizing r with
  | nil => rfl
  | cons k ks ih =>
    rw [List.cons_append, weightedBucket]
    dsimp only
    by_cases small : c.table.count k ≤ n
    · rw [Table.mass_cons_of_le small] at far ⊢
      rw [if_pos (by omega)]
      exact ih far
    · rw [Table.mass_cons_of_lt (Nat.lt_of_not_le small)] at far ⊢
      rw [if_neg (by omega), if_pos (by omega), ih (by omega), Nat.sub_sub]

theorem weightedBucket_isSome_of_yielding (pos : 0 < n) (large : n < c.table.count k) (near : r ≤ c.table.count k)
    (can : c.Yielding n k) : (c.weightedBucket n (k :: ks) r).1.isSome := by
  unfold Yielding at can
  rw [weightedBucket]
  dsimp only
  rw [if_neg (by omega), if_neg (by omega), if_pos can]
  cases e : c.start k with
  | none =>
    rw [e, Table.mergeable_none, decide_eq_true_iff] at can
    omega
  | some i => rfl

theorem weightedBucket_of_not_yielding (large : n < c.table.count k) (near : r ≤ c.table.count k)
    (cannot : ¬c.Yielding n k) :
    c.weightedBucket n (k :: ks) r = (c.setCursor k none).weightedBucket n ks r := by
  unfold Yielding at cannot
  rw [weightedBucket]
  dsimp only
  rw [if_neg (by omega), if_neg (by omega), if_neg cannot]

theorem weightedBucket_isSome_iff (pos : 0 < n) (nodup : ks.Nodup) :
    (c.weightedBucket n ks r).1.isSome ↔ ∃ k ∈ c.table.stops n ks r, c.Yielding n k := by
  induction ks generalizing r c with
  | nil => simp [weightedBucket, Table.stops]
  | cons k ks ih =>
    obtain ⟨out, inner⟩ := List.nodup_cons.mp nodup
    rw [Table.stops]
    by_cases small : c.table.count k ≤ n
    · rw [if_pos small, weightedBucket, if_pos (Nat.lt_succ_of_le small)]
      exact ih inner
    · rw [if_neg small]
      split
      · rename_i far
        rw [weightedBucket]
        dsimp only
        rw [if_neg (by omega), if_pos far]
        exact ih inner
      · rename_i near
        by_cases can : c.Yielding n k
        · exact iff_of_true (weightedBucket_isSome_of_yielding pos (by omega) (by omega) can)
            ⟨k, List.mem_cons_self, can⟩
        · rw [weightedBucket_of_not_yielding (by omega) (by omega) can, ih inner,
            Table.stops_congr (c.count_setCursor k none)]
          simp only [List.mem_cons, exists_eq_or_imp, can, false_or]
          refine exists_congr fun m => and_congr_right fun hm => yielding_setCursor ?_ none
          rintro rfl
          exact out (Table.mem_of_mem_stops hm)

theorem weightedBucket_isSome_of_mem (pos : 0 < n) (hk : k ∈ ks) (large : n < c.table.count k)
    (near : r ≤ c.table.count k) (can : c.Yielding n k) : (c.weightedBucket n ks r).1.isSome := by
  induction ks generalizing r c with
  | nil => cases hk
  | cons m ks ih =>
    by_cases e : k = m
    · subst e
      exact weightedBucket_isSome_of_yielding pos large near can
    · have later := (List.mem_cons.mp hk).resolve_left e
      by_cases passed : c.table.count m < n + 1
      · rw [weightedBucket, if_pos passed]
        exact ih later large near can
      · by_cases far : c.table.count m < r
        · rw [weightedBucket]
          dsimp only
          rw [if_neg passed, if_pos far]
          exact ih later large (by omega) can
        · by_cases found : c.Yielding n m
          · exact weightedBucket_isSome_of_yielding pos (by omega) (by omega) found
          · rw [weightedBucket_of_not_yielding (by omega) (by omega) found]
            refine ih later ?_ ?_ ((yielding_setCursor (Ne.symm e) none).mpr can)
            · rw [count_setCursor]
              exact large
            · rw [count_setCursor]
              exact near

/-- A walk that stops in its first lap comes back to that bucket, with its cursor reset, in the second. -/
theorem Fit.weightedBucket_isSome_of_le (h : c.Fit seqs a) (pos : 0 < n) (large : ∃ k ∈ ks, n < c.table.count k)
    (near : r ≤ c.table.mass n ks) (again : ∀ k ∈ ks, k ∈ rest) :
    (c.weightedBucket n (ks ++ rest) r).1.isSome := by
  induction ks generalizing r c with
  | nil =>
    obtain ⟨k, hk, -⟩ := large
    cases hk
  | cons k ks ih =>
    have again' : ∀ m ∈ ks, m ∈ rest := fun m hm => again m (List.mem_cons_of_mem k hm)
    rw [List.cons_append]
    by_cases small : c.table.count k ≤ n
    · rw [Table.mass_cons_of_le small] at near
      rw [Chooser.weightedBucket, if_pos (Nat.lt_succ_of_le small)]
      refine ih h ?_ near again'
      obtain ⟨m, hm, long⟩ := large
      rcases List.mem_cons.mp hm with rfl | hm
      · omega
      · exact ⟨m, hm, long⟩
    · rw [Table.mass_cons_of_lt (Nat.lt_of_not_le small)] at near
      by_cases far : c.table.count k < r
      · rw [Chooser.weightedBucket]
        dsimp only
        rw [if_neg (by omega), if_pos far]
        exact ih h (Table.mass_pos_iff.mp (by omega)) (by omega) again'
      · by_cases can : c.Yielding n k
        · exact weightedBucket_isSome_of_yielding pos (by omega) (by omega) can
        · rw [weightedBucket_of_not_yielding (by omega) (by omega) can]
          have same : (c.setCursor k none).table.count k = c.table.count k := by rw [count_setCursor]
          refine weightedBucket_isSome_of_mem pos (List.mem_append_right ks (again k List.mem_cons_self))
            (by omega) (by omega) ?_
          refine (h.setCursor_none k).yielding_front (fun hk => ?_) (by omega)
          exact (c.partway_setCursor_none k hk).2 rfl

theorem live_of_mem_laps {k : Nat} (hk : k ∈ List.range liveBuckets ++ List.range liveBuckets) :
    k < liveBuckets :=
  List.mem_range.mp ((List.mem_append.mp hk).elim id id)

/-- A walk over all buckets twice finds a run exactly where it reaches one. -/
theorem Fit.weightedBucket_isSome_iff_reaches (h : c.Fit seqs a) (pos : 0 < n) (r : Nat) :
    (c.weightedBucket n (List.range liveBuckets ++ List.range liveBuckets) r).1.isSome ↔
      c.table.Reaches n r := by
  have strung := h.settled.strung
  have lap (far : c.table.mass n (List.range liveBuckets) < r) :
      (c.weightedBucket n (List.range liveBuckets ++ List.range liveBuckets) r).1.isSome ↔
        ∃ k ∈ c.table.stops n (List.range liveBuckets) (r - c.table.mass n (List.range liveBuckets)),
          n < (c.table.ahead k).length := by
    rw [weightedBucket_lap far, weightedBucket_isSome_iff pos List.nodup_range]
    simp only [h.yielding_iff pos]
  constructor
  · intro found
    obtain ⟨⟨k, i⟩, e⟩ := Option.isSome_iff_exists.mp found
    obtain ⟨hk, l, s, hs, -, long⟩ := (h.weightedBucket pos (fun _ => live_of_mem_laps) r).2 k i e
    refine ⟨⟨k, hk, ?_⟩, ?_⟩
    · rw [strung.count_eq, hs, List.length_append]
      omega
    · by_cases near : r ≤ c.table.mass n (List.range liveBuckets)
      · exact .inl near
      · exact .inr ((lap (Nat.lt_of_not_le near)).mp found)
  · rintro ⟨⟨k, hk, large⟩, reached⟩
    by_cases near : r ≤ c.table.mass n (List.range liveBuckets)
    · exact h.weightedBucket_isSome_of_le pos ⟨k, List.mem_range.mpr hk, large⟩ near fun _ hm => hm
    · exact (lap (Nat.lt_of_not_le near)).mpr (reached.resolve_left near)

theorem Fit.weighs_oldest (h : c.Fit seqs a) {reaches : Prop} (missed : ¬reaches) :
    Weighs seqs n reaches c.oldest.1 := by
  rcases h.fronts_oldest with ⟨k, hk, i, s, front, e⟩ | ⟨e, empty⟩
  · exact e ▸ .oldest missed hk front
  · exact e ▸ .nothing empty

theorem Fit.weighs_weightedRun (h : c.Fit seqs a) (pos : 0 < n) :
    Weighs seqs n (c.table.Reaches n (c.random.below32 c.table.inUse).1) (c.weightedRun n).1 := by
  unfold Chooser.weightedRun
  split
  · refine .nothing fun k hk => List.eq_nil_of_length_eq_zero ?_
    have le := h.settled.strung.counted.length_le hk
    omega
  · have drawn := h.draw c.table.inUse
    have reaches := drawn.weightedBucket_isSome_iff_reaches pos (c.random.below32 c.table.inUse).1
    obtain ⟨fit, stops⟩ := drawn.weightedBucket pos (fun _ => live_of_mem_laps) (c.random.below32 c.table.inUse).1
    have walked : c.draw c.table.inUse = ((c.random.below32 c.table.inUse).1, (c.draw c.table.inUse).2) := rfl
    have same : (c.draw c.table.inUse).2.table = c.table := rfl
    rw [same] at reaches
    rw [walked]
    dsimp only
    generalize (c.draw c.table.inUse).2.weightedBucket n _ _ = q at reaches fit stops ⊢
    obtain ⟨found, d⟩ := q
    dsimp only at reaches fit stops ⊢
    cases found with
    | none => exact fit.weighs_oldest (mt reaches.mpr Bool.false_ne_true)
    | some ki =>
      obtain ⟨k, i⟩ := ki
      obtain ⟨hk, l, s, hs, head, long⟩ := stops k i rfl
      have run := fit.settled.strung.run_eq hs n
      rw [head] at run
      dsimp only
      rw [run]
      exact .run (reaches.mp rfl) (stretch_take hk hs long)

theorem Fit.weighs_orOldest {p : Option Choice × Chooser} {reaches : Prop} (h : p.2.Fit seqs a)
    (chosen : Weighs seqs n reaches p.1) : Weighs seqs n reaches (Chooser.orOldest p).1 := by
  have same : Chooser.orOldest p = p := by
    refine h.orOldest_eq fun e => ?_
    rw [e] at chosen
    cases chosen with
    | nothing empty => exact empty
  rw [same]
  exact chosen

end Chooser

namespace Table
variable {seqs : Nat → List Slot} {a : Table} {n r : Nat}

theorem reaches_of_lt (large : ∃ k < liveBuckets, n < a.count k)
    (few : a.inUse ≤ a.mass n (List.range liveBuckets) + 1) (drawn : r < a.inUse) : a.Reaches n r :=
  ⟨large, .inl (by omega)⟩

/-- A draw beyond twice the segments of the large buckets reaches no run. -/
theorem not_reaches_of_lt (far : 2 * a.mass n (List.range liveBuckets) < r) : ¬a.Reaches n r := by
  rintro ⟨-, near | ⟨k, hk, -⟩⟩
  · omega
  · rw [stops_eq_nil (by omega)] at hk
    cases hk

end Table

namespace Cache
variable {μ : Type} {c : Cache μ}

structure WeighsBuckets (c : Cache μ) [Regressor μ] : Prop where
  choose : c.selection = .weightedFifo → ∀ random, Yields (Cache.choose { c with random }) fun p =>
    Weighs c.contents.table.chainOf c.config.mergeCount
      (c.contents.table.Reaches c.config.mergeCount (random.below32 c.contents.table.inUse).1) p.1
  /-- A walk cannot miss a run where the buckets that are too small hold a single segment at the most. -/
  sure : c.contents.table.inUse ≤ c.contents.table.mass c.config.mergeCount (List.range liveBuckets) + 1 →
    (∃ k < liveBuckets, c.config.mergeCount < c.contents.table.count k) →
    ∀ random : Randomness.Generator,
      c.contents.table.Reaches c.config.mergeCount (random.below32 c.contents.table.inUse).1
  lost : ∀ r, 2 * c.contents.table.mass c.config.mergeCount (List.range liveBuckets) < r →
    ¬c.contents.table.Reaches c.config.mergeCount r

variable [Regressor μ]

theorem Sound.weighsBuckets (h : c.Sound) : c.WeighsBuckets where
  choose weighted random := by
    have pos : 0 < c.config.mergeCount := Nat.lt_of_succ_lt (Config.bounds_of_validate h.accepted).2.1
    have fit : (Cache.chooser { c with random } c.contents.table).Fit c.contents.table.chainOf c.contents.table :=
      ⟨.refl h.contents.strung h.contents.ranked, h.turn⟩
    unfold Cache.choose
    have selects : Cache.selection { c with random } = .weightedFifo := weighted
    rw [selects]
    exact yields_pure ((fit.weightedRun pos).fit.weighs_orOldest (fit.weighs_weightedRun pos))
  sure few large random := by
    obtain ⟨k, hk, long⟩ := large
    refine Table.reaches_of_lt ⟨k, hk, long⟩ few (Randomness.Generator.below32_lt ?_ random)
    have le := h.contents.strung.counted.length_le hk
    rw [← h.contents.strung.count_eq] at le
    omega
  lost _ far := Table.not_reaches_of_lt far

open EvictionPolicy

variable {config : Config} (capacity overhead : Nat) (model : μ)

/--
Whatever a run has done before, also while it makes room for an object: a choice in proportion to
size merges exactly where the walk for the number drawn reaches a run, and this number may be too
large although some bucket holds one.
-/
theorem run_weighs_buckets (accepted : config.validate = .ok ()) (ops : List Operation) :
    Settles (.ofModel μ) (run (ofConfig capacity overhead config model) ops) fun c =>
      c.WeighsBuckets ∧ ∀ (req : Request) (evictions : Nat),
        Settles (.ofModel μ) (makingRoom c req evictions) fun d => d.WeighsBuckets :=
  dependable_ofModel.settles_throughout (fun _ h => h.weighsBuckets) _ ops
    (sound_ofConfig capacity overhead model accepted)

/-- Nine small objects fill three segments of one bucket, and five larger ones take a bucket each. -/
theorem run_weighs_buckets_mixed :
    Config.validate { Config.defaults with
      segmentSize := 4, retain := 4, selection := some .weightedFifo, buckets := .bySize } = .ok () ∧
    Yields (run (ofConfig 1000 0 { Config.defaults with
        segmentSize := 4, retain := 4, selection := some .weightedFifo, buckets := .bySize }
        (Boosted.unfitted .defaults)) ((List.range 14).map (Operation.get ∘ fun i => .ofId i (2 ^ (i - 8)) i)))
      (fun c => c.WeighsBuckets ∧ ∀ (req : Request) (evictions : Nat),
        Settles (.ofModel Boosted) (makingRoom c req evictions) fun d => d.WeighsBuckets) :=
  ⟨rfl, returns rfl (by decide) (run_weighs_buckets 1000 0 _ rfl _)⟩

end Cache
end CacheReplay.GLCache
