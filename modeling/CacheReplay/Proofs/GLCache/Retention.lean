import CacheReplay.Proofs.Floating
import CacheReplay.Proofs.GLCache.Consolidation

set_option autoImplicit false

namespace CacheReplay.GLCache
open Floating (rank le_iff_rank lt_iff_rank rank_le_of_totalLE neg_le_rank totalLE totalLE_trans totalLE_total)

section cutoff
variable {scores : List Float} {retain : Nat} {x : Float}

/-- What a cutoff for some number of objects tells of their scores. -/
structure Separates (scores : List Float) (retain : Nat) (x : Float) : Prop where
  number : x.isNaN = false
  reached : min retain scores.length ≤ scores.countP (x ≤ ·)
  above : retain < scores.length → scores.countP (x < ·) < retain
  exact : scores.Pairwise (fun a b => ¬(a ≤ b ∧ b ≤ a)) →
    scores.countP (x ≤ ·) = min retain scores.length

theorem lowest_le {s : Float} (number : s.isNaN = false) : lowest ≤ s := by
  have least : rank lowest = -(2047 * 2 ^ 52) := by decide +kernel
  rw [le_iff_rank (by decide +kernel) number, least]
  exact neg_le_rank number

theorem separates_lowest (numbers : ∀ s ∈ scores, s.isNaN = false) (fits : scores.length ≤ retain) :
    Separates scores retain lowest := by
  have all : scores.countP (lowest ≤ ·) = scores.length := by
    rw [List.countP_eq_length]
    exact fun s hs => decide_eq_true (lowest_le (numbers s hs))
  refine ⟨by decide +kernel, ?_, fun more => absurd more (Nat.not_lt.mpr fits), fun _ => ?_⟩
  · rw [all]
    exact Nat.min_le_right _ _
  · rw [all, Nat.min_eq_right fits]

/-- The score that stands `retain` from the end of the sorted scores. -/
theorem separates_of_sorted {a b : List Float} (numbers : ∀ s ∈ scores, s.isNaN = false)
    (perm : (a ++ x :: b).Perm scores) (sorted : (a ++ x :: b).Pairwise (totalLE · ·))
    (length : b.length + 1 = retain) : Separates scores retain x := by
  have number : ∀ s ∈ a ++ x :: b, s.isNaN = false := fun s hs => numbers s (perm.mem_iff.mp hs)
  have hx := number x (by simp)
  obtain ⟨-, later, earlier⟩ := List.pairwise_append.mp sorted
  have below : ∀ s ∈ a, rank s ≤ rank x := fun s hs =>
    rank_le_of_totalLE (earlier s hs x List.mem_cons_self)
  have reach : ∀ s ∈ x :: b, x ≤ s := by
    intro s hs
    rw [le_iff_rank hx (number s (List.mem_append_right a hs))]
    rcases List.mem_cons.mp hs with rfl | hs
    · exact le_refl _
    · exact rank_le_of_totalLE (List.rel_of_pairwise_cons later hs)
  have tail : (x :: b).countP (x ≤ ·) = retain := by
    rw [List.countP_eq_length.mpr fun s hs => decide_eq_true (reach s hs), List.length_cons, length]
  have total : a.length + retain = scores.length := by
    rw [← perm.length_eq, List.length_append, List.length_cons, length]
  have least : min retain scores.length = retain := Nat.min_eq_left (by omega)
  refine ⟨hx, ?_, fun _ => ?_, fun distinct => ?_⟩
  · rw [least, ← perm.countP_eq, List.countP_append, tail]
    exact Nat.le_add_left _ _
  · have none : a.countP (x < ·) = 0 := by
      rw [List.countP_eq_zero]
      intro s hs
      rw [decide_eq_true_iff, lt_iff_rank hx (number s (List.mem_append_left _ hs))]
      exact not_lt.mpr (below s hs)
    have self : ¬ x < x := by
      rw [lt_iff_rank hx hx]
      exact lt_irrefl _
    rw [← perm.countP_eq, List.countP_append, none, Nat.zero_add, List.countP_cons, if_neg (by simpa using self),
      Nat.add_zero]
    exact Nat.lt_of_le_of_lt List.countP_le_length (by omega)
  · have apart := (perm.pairwise_iff fun h both => h ⟨both.2, both.1⟩).mpr distinct
    have none : a.countP (x ≤ ·) = 0 := by
      rw [List.countP_eq_zero]
      intro s hs
      rw [decide_eq_true_iff]
      intro reaches
      have number := number s (List.mem_append_left _ hs)
      refine (List.pairwise_append.mp apart).2.2 s hs x List.mem_cons_self ⟨?_, reaches⟩
      rw [le_iff_rank number hx]
      exact below s hs
    rw [least, ← perm.countP_eq, List.countP_append, none, tail, Nat.zero_add]

theorem exists_cutoff (numbers : ∀ s ∈ scores, s.isNaN = false) (pos : 0 < retain) :
    ∃ x, cutoff scores retain = .ok x ∧ Separates scores retain x := by
  by_cases fits : scores.length ≤ retain
  · exact ⟨lowest, cutoff_of_length_le fits, separates_lowest numbers fits⟩
  · have perm := List.mergeSort_perm scores totalLE
    have at_cutoff : scores.length - retain < (scores.mergeSort totalLE).length := by
      rw [perm.length_eq]
      omega
    refine ⟨(scores.mergeSort totalLE)[scores.length - retain], ?_, ?_⟩
    · rw [cutoff, if_neg fits, List.getElem?_eq_getElem at_cutoff]
      rfl
    · have split : (scores.mergeSort totalLE).take (scores.length - retain) ++
          (scores.mergeSort totalLE)[scores.length - retain] ::
            (scores.mergeSort totalLE).drop (scores.length - retain + 1) = scores.mergeSort totalLE := by
        rw [← List.drop_eq_getElem_cons at_cutoff, List.take_append_drop]
      refine separates_of_sorted numbers (by rw [split]; exact perm) ?_ ?_
      · rw [split]
        exact List.pairwise_mergeSort totalLE_trans totalLE_total scores
      · rw [List.length_drop, perm.length_eq]
        omega

end cutoff

section reaching
variable {cutoff : Float} {scores : List Float} {objects : List Slot}

theorem length_reaching (length : scores.length = objects.length) :
    (reaching cutoff scores objects).length = scores.countP (cutoff ≤ ·) := by
  induction objects generalizing scores with
  | nil =>
    rw [List.length_eq_zero_iff.mp length]
    rfl
  | cons i rest ih =>
    cases scores with
    | nil => cases length
    | cons s scores =>
      rw [reaching_cons, List.length_append, List.tail_cons, ih (Nat.succ.inj length), List.countP_cons,
        Nat.add_comm]
      by_cases reaches : cutoff ≤ s <;> simp [reaches]

theorem reaching_sublist (cutoff : Float) (scores : List Float) (objects : List Slot) :
    (reaching cutoff scores objects).Sublist objects := by
  have sub := (List.filter_sublist (l := objects.zipIdx)
    (p := fun e => cutoff ≤ scores.getD e.2 lowest)).map (·.1)
  rwa [List.zipIdx_map_fst] at sub

theorem reaching_of_all_reach (length : scores.length = objects.length) (all : ∀ s ∈ scores, cutoff ≤ s) :
    reaching cutoff scores objects = objects := by
  refine (reaching_sublist cutoff scores objects).eq_of_length ?_
  rw [length_reaching length, List.countP_eq_length.mpr fun s hs => decide_eq_true (all s hs), length]

theorem mem_reaching_iff (nodup : objects.Nodup) {n : Nat} {i : Slot} {s : Float}
    (hi : objects[n]? = some i) (hs : scores[n]? = some s) :
    i ∈ reaching cutoff scores objects ↔ cutoff ≤ s := by
  have score : scores.getD n lowest = s := by
    rw [List.getD_eq_getElem?_getD, hs]
    rfl
  rw [reaching, List.mem_map]
  constructor
  · rintro ⟨⟨j, k⟩, mem, rfl⟩
    obtain ⟨found, reaches⟩ := List.mem_filter.mp mem
    rw [List.mem_zipIdx_iff_getElem?] at found
    have same : k = n :=
      ((List.getElem?_inj (List.getElem?_eq_some_iff.mp hi).1 nodup).mp (hi.trans found.symm)).symm
    rw [same, score] at reaches
    exact of_decide_eq_true reaches
  · intro reaches
    refine ⟨(i, n), List.mem_filter.mpr ⟨?_, ?_⟩, rfl⟩
    · rw [List.mem_zipIdx_iff_getElem?]
      exact hi
    · rw [score]
      exact decide_eq_true reaches

theorem filter_mem_of_sublist {s l : List Slot} (sub : s.Sublist l) (nodup : l.Nodup) :
    l.filter (· ∈ s) = s := by
  have within : s.Sublist (l.filter (· ∈ s)) := by
    have kept := sub.filter (· ∈ s)
    rwa [List.filter_eq_self.mpr fun i hi => decide_eq_true hi] at kept
  have few := (nodup.filter (· ∈ s)).subperm fun i hi => of_decide_eq_true (List.mem_filter.mp hi).2
  exact (within.eq_of_length_le few.length_le).symm

end reaching

/-- No object that was dropped scores strictly higher than one that was kept. -/
def NoneBetter (objects : List Slot) (scores : List Float) (kept : List Slot) : Prop :=
  ∀ (m n : Nat) (i j : Slot) (s e : Float), objects[m]? = some i → scores[m]? = some s → i ∈ kept →
    objects[n]? = some j → scores[n]? = some e → j ∉ kept → ¬ s < e

/-- Which of the scored objects are kept when `retain` were asked for and one segment holds `capacity`. -/
structure Retains (objects : List Slot) (scores : List Float) (capacity retain : Nat) (cutoff : Float)
    (kept : List Slot) : Prop where
  kept_eq : kept = (reaching cutoff scores objects).take capacity
  length_eq : kept.length = min capacity (scores.countP (cutoff ≤ ·))
  reached : min retain objects.length ≤ scores.countP (cutoff ≤ ·)
  above : retain < objects.length → scores.countP (cutoff < ·) < retain
  /-- The best are kept unless more objects tie with the cutoff than one segment holds. -/
  best : scores.countP (cutoff ≤ ·) ≤ capacity → NoneBetter objects scores kept
  /-- As many as asked for, the best of them, are kept when no two score alike. -/
  distinct : scores.Pairwise (fun a b => ¬(a ≤ b ∧ b ≤ a)) →
    kept.length = min retain objects.length ∧ NoneBetter objects scores kept

theorem Separates.retains {objects : List Slot} {scores : List Float} {capacity retain : Nat} {x : Float}
    (h : Separates scores retain x) (numbers : ∀ s ∈ scores, s.isNaN = false)
    (length : scores.length = objects.length) (nodup : objects.Nodup) (fits : retain ≤ capacity) :
    Retains objects scores capacity retain x ((reaching x scores objects).take capacity) := by
  have size : ((reaching x scores objects).take capacity).length =
      min capacity (scores.countP (x ≤ ·)) := by
    rw [List.length_take, length_reaching length]
  have best : scores.countP (x ≤ ·) ≤ capacity →
      NoneBetter objects scores ((reaching x scores objects).take capacity) := by
    intro enough m n i j s e hi hs mem hj he out
    rw [List.take_of_length_le (by rw [length_reaching length]; exact enough)] at mem out
    rw [mem_reaching_iff nodup hi hs] at mem
    rw [mem_reaching_iff nodup hj he] at out
    have number := numbers s (List.mem_of_getElem? hs)
    have number' := numbers e (List.mem_of_getElem? he)
    rw [le_iff_rank h.number number] at mem
    rw [le_iff_rank h.number number'] at out
    rw [lt_iff_rank number number']
    omega
  refine ⟨rfl, size, ?_, ?_, best, fun distinct => ?_⟩
  · rw [← length]
    exact h.reached
  · rw [← length]
    exact h.above
  · have exact := h.exact distinct
    rw [length] at exact
    have few : scores.countP (x ≤ ·) ≤ capacity := by
      rw [exact]
      exact Nat.le_trans (Nat.min_le_left _ _) fits
    refine ⟨?_, best few⟩
    rw [size, Nat.min_eq_right few, exact]

namespace Contents
variable {c d : Contents} {parents : List Slot} {k : Nat}

def retained (d : Contents) (objects : List Slot) : List Slot :=
  objects.filter fun i => (d.store.live? i).isSome

theorem Consolidated.retained_eq {scores : List Float} {cutoff : Float} {m : Moment} {target : Slot} {y : Yield}
    (done : c.Consolidated k parents scores cutoff m target y d) (h : c.Sound)
    (group : c.table.Group parents k) :
    d.retained (parents.flatMap c.table.objectsOf) = c.survivors parents scores cutoff := by
  have sub : (c.survivors parents scores cutoff).Sublist (parents.flatMap c.table.objectsOf) :=
    (List.take_sublist _ _).trans (reaching_sublist _ _ _)
  rw [retained, ← filter_mem_of_sublist sub (h.nodup_objects group)]
  refine List.filter_congr fun i hi => ?_
  obtain ⟨r, hr⟩ := h.exists_live group hi
  rw [done.live, hr]
  by_cases mem : i ∈ c.survivors parents scores cutoff
  · rw [if_pos mem]
    exact (decide_eq_true mem).symm
  · rw [if_neg mem, if_pos hi]
    exact (decide_eq_false mem).symm

def Retention (c : Contents) (parents : List Slot) (scores : List Float) (retain : Nat) (x : Float)
    (q : Yield × Contents) : Prop :=
  let objects := parents.flatMap c.table.objectsOf
  q.1.kept = (q.2.retained objects).length ∧
    Retains objects scores c.table.segmentSize retain x (q.2.retained objects)

theorem Sound.retention (h : c.Sound) (group : c.table.Group parents k) {scores : List Float} {retain : Nat}
    {x : Float} {m : Moment} {q : Yield × Contents} (fits : retain ≤ c.table.segmentSize)
    (length : scores.length = (parents.flatMap c.table.objectsOf).length)
    (numbers : ∀ s ∈ scores, s.isNaN = false) (separates : Separates scores retain x)
    (done : ∃ target, c.Consolidated k parents scores x m target q.1 q.2) :
    c.Retention parents scores retain x q := by
  obtain ⟨target, done⟩ := done
  rw [Retention, done.retained_eq h group]
  exact ⟨done.kept, separates.retains numbers length (h.nodup_objects group) fits⟩

/-- Three of four objects tie and one is better; asked for two, the merge keeps the three. -/
theorem merge_drops_best : ∃ c : Contents, c.Sound ∧ c.table.Group [0, 1] 0 ∧ c.table.segmentSize = 3 ∧
    ([0, 1].flatMap c.table.objectsOf).length = 4 ∧ cutoff [1, 1, 1, 2] 2 = .ok 1 ∧
      Yields (c.merge [0, 1] [1, 1, 1, 2] 1 ⟨5, 5⟩) fun q =>
        (q.2.retained ([0, 1].flatMap c.table.objectsOf)).length = 3 ∧
          ¬ NoneBetter ([0, 1].flatMap c.table.objectsOf) [1, 1, 1, 2]
            (q.2.retained ([0, 1].flatMap c.table.objectsOf)) := by
  obtain ⟨c, sizes, stocked, first, second⟩ := exists_stocked
  have length : ([0, 1].flatMap c.table.objectsOf).length = 4 := by
    rw [stocked.length_objects, first, second]
  have bar : cutoff [1, 1, 1, 2] 2 = .ok 1 := by
    have sorted : ([1, 1, 1, 2] : List Float).Pairwise (totalLE · ·) := by decide +kernel
    rw [cutoff, if_neg (by decide), List.mergeSort_of_pairwise sorted]
    rfl
  refine ⟨c, stocked.sound, stocked.group, stocked.segmentSize, length, bar, ?_⟩
  refine (stocked.sound.yields_consolidated stocked.group stocked.countable [1, 1, 1, 2] 1 ⟨5, 5⟩).mono
    fun q done => ?_
  obtain ⟨target, done⟩ := done
  rw [done.retained_eq stocked.sound stocked.group, survivors, stocked.segmentSize,
    reaching_of_all_reach (by rw [length]; rfl) (by decide +kernel)]
  have nodup := stocked.sound.nodup_objects stocked.group
  generalize [0, 1].flatMap c.table.objectsOf = objects at length nodup ⊢
  refine ⟨by rw [List.length_take, length]; rfl, fun best => ?_⟩
  have first : objects[0]? = some objects[0] := List.getElem?_eq_getElem (by omega)
  have last : objects[3]? = some objects[3] := List.getElem?_eq_getElem (by omega)
  refine best 0 3 _ _ 1 2 first rfl ?_ last rfl ?_ (by decide +kernel)
  · exact List.mem_take_iff_getElem.mpr ⟨0, by omega, rfl⟩
  · intro mem
    obtain ⟨n, small, same⟩ := List.mem_take_iff_getElem.mp mem
    cases (nodup.getElem_inj_iff).mp same
    omega

/--
A merge at the cutoff for `retain` objects, whatever their scores are as long as
each is a number. It keeps those that reach the cutoff, as far as one segment
holds them.
-/
theorem merge_retains (h : c.Sound) (group : c.table.Group parents k) {scores : List Float} {retain : Nat}
    (pos : 0 < retain) (fits : retain ≤ c.table.segmentSize)
    (length : scores.length = (parents.flatMap c.table.objectsOf).length)
    (numbers : ∀ s ∈ scores, s.isNaN = false) (m : Moment) : ∃ x, cutoff scores retain = .ok x ∧
      Settles .arithmetic (c.merge parents scores x m) (c.Retention parents scores retain x) ∧
      (c.Countable parents → Yields (c.merge parents scores x m) (c.Retention parents scores retain x)) := by
  obtain ⟨x, bar, separates⟩ := exists_cutoff numbers pos
  have retention := fun q => h.retention (q := q) (m := m) group fits length numbers separates
  exact ⟨x, bar, (h.settles_consolidated group scores x m).mono retention, fun countable =>
    (h.yields_consolidated group countable scores x m).mono retention⟩

theorem merge_retains_stocked : ∃ c : Contents, c.Sound ∧ c.table.Group [0, 1] 0 ∧ c.table.segmentSize = 3 ∧
    ([0, 1].flatMap c.table.objectsOf).length = 4 ∧ ∃ x, cutoff [1, 0, 3, 2] 2 = .ok x ∧
      Yields (c.merge [0, 1] [1, 0, 3, 2] x ⟨5, 5⟩) (c.Retention [0, 1] [1, 0, 3, 2] 2 x) := by
  obtain ⟨c, sizes, stocked, first, second⟩ := exists_stocked
  have length : ([0, 1].flatMap c.table.objectsOf).length = 4 := by
    rw [stocked.length_objects, first, second]
  obtain ⟨x, bar, -, yields⟩ := merge_retains stocked.sound stocked.group (show 0 < 2 by decide)
    (by rw [stocked.segmentSize]; decide) (show [1, 0, 3, 2].length = _ by rw [length]; rfl)
    (by decide +kernel) ⟨5, 5⟩
  exact ⟨c, stocked.sound, stocked.group, stocked.segmentSize, length, x, bar, yields stocked.countable⟩

end Contents
end CacheReplay.GLCache
