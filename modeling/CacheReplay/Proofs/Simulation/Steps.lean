import Mathlib
import CacheReplay.Proofs.Admission
import CacheReplay.Proofs.GLCache.Knobs
import CacheReplay.Proofs.Simulation.Replay

set_option autoImplicit false

namespace CacheReplay
open EvictionPolicy

/-- The first multiple of a step beyond a limit is a word, and so is the number of the next one. -/
def Passable (step limit : Nat) : Prop := IsWord (limit / step + 2) ∧ IsWord ((limit / step + 1) * step)

instance (step limit : Nat) : Decidable (Passable step limit) := by
  unfold Passable
  infer_instance

theorem multiplesFrom_of_not_isWord {step limit i : Nat} (outside : ¬(IsWord (i + 1) ∧ IsWord (i * step))) :
    multiplesFrom step limit i = .error .overflow := by
  unfold multiplesFrom
  split
  · rename_i next
    rw [mulWord, if_neg fun word => outside ⟨next, word⟩]
    rfl
  · rfl

theorem multiplesFrom_eq {step limit i : Nat} (pos : 0 < step) (le : i ≤ limit / step + 1) :
    multiplesFrom step limit i = if Passable step limit then
      .ok ((List.range' i (limit / step + 1 - i)).map (· * step)) else .error .overflow := by
  generalize left : limit / step + 1 - i = k
  induction k generalizing i with
  | zero =>
    obtain rfl : i = limit / step + 1 := by omega
    have beyond : ¬(limit / step + 1) * step ≤ limit := by
      rw [Nat.mul_comm]
      exact Nat.not_le.mpr (Nat.lt_mul_div_succ limit pos)
    by_cases words : Passable step limit
    · rw [multiplesFrom, dif_pos words.1, mulWord, if_pos words.2, ok_bind, if_neg beyond, if_pos words]
      rfl
    · rw [multiplesFrom_of_not_isWord words, if_neg words]
  | succ k ih =>
    have here : i ≤ limit / step := by omega
    have below : i * step ≤ limit := (Nat.le_div_iff_mul_le pos).mp here
    by_cases words : IsWord (i + 1) ∧ IsWord (i * step)
    · rw [multiplesFrom, dif_pos words.1, mulWord, if_pos words.2, ok_bind, if_pos below,
        ih (Nat.succ_le_succ here) (by omega)]
      split
      · rfl
      · rfl
    · have impassable : ¬Passable step limit := by
        refine fun all => words ⟨all.1.of_le (by omega), all.2.of_le ?_⟩
        exact Nat.mul_le_mul_right step (Nat.le_succ_of_le here)
      rw [multiplesFrom_of_not_isWord words, if_neg impassable]

def multiples (step limit : Nat) : List Nat := (List.range' 1 (limit / step)).map (· * step)

section
variable {step : Nat} (pos : 0 < step) (limit : Nat)
include pos

theorem mem_multiples (n : Nat) : n ∈ multiples step limit ↔ 0 < n ∧ n ≤ limit ∧ step ∣ n := by
  simp only [multiples, List.mem_map, List.mem_range'_1]
  constructor
  · rintro ⟨i, ⟨one, below⟩, rfl⟩
    have le : i ≤ limit / step := by omega
    exact ⟨Nat.mul_pos one pos, (Nat.le_div_iff_mul_le pos).mp le, Nat.dvd_mul_left step i⟩
  · rintro ⟨some, le, i, rfl⟩
    rw [Nat.mul_comm] at le
    have := (Nat.le_div_iff_mul_le pos).mpr le
    have := Nat.pos_of_mul_pos_left some
    exact ⟨i, by omega, Nat.mul_comm i step⟩

theorem pairwise_multiples : (multiples step limit).Pairwise (· < ·) := by
  apply List.Pairwise.map _ _ (List.pairwise_lt_range' 1)
  exact fun i j less => Nat.mul_lt_mul_of_pos_right less pos

end

namespace AnyCache
open Regression
variable {μ : Type} [Regressor μ]

theorem Fresh.capacity_of_simulate {c d : AnyCache μ} (fresh : c.Fresh) {rs : List Request} {w : Warmup}
    {stats : Statistics} (run : simulate rs c w = .ok (stats, d)) :
    stats.capacity = (account c).capacity := by
  obtain ⟨sound, dependable, hc⟩ := fresh.dependable
  have keeps : ∀ (s : AnyCache μ) (req : Request), sound s ∧ (account s).capacity = (account c).capacity →
      Settles (.ofModel μ) (serve s req) fun p =>
        sound p.2 ∧ (account p.2).capacity = (account c).capacity := by
    rintro s req ⟨hs, capacity⟩
    apply (dependable.settles_serve s req hs).mono
    rintro p ⟨hp, -, same, -⟩
    exact ⟨hp, same.trans capacity⟩
  have kept := settles_simulate_of_serve keeps w rs ⟨hc, rfl⟩
  rw [run] at kept
  exact kept.2.trans kept.1.2

end AnyCache

namespace Blueprint
open Regression
variable {μ : Type} [Regressor μ] {b : Blueprint μ} {kind : PolicyKind}

theorem exists_fresh {c : AnyCache (Boosted ⊕ μ)} (built : b.build kind = .ok c) :
    0 < b.capacity ∧ ∃ resized : Nat → AnyCache (Boosted ⊕ μ), ∀ n, 0 < n →
      { b with capacity := n }.build kind = .ok (resized n) ∧ (resized n).Fresh ∧
        (account (resized n)).capacity = n := by
  unfold build at built
  by_cases zero : b.capacity = 0
  · rw [if_pos zero] at built
    cases built
  rw [if_neg zero] at built
  obtain ⟨params, parsed, built⟩ := bind_eq_ok_iff.mp built
  refine ⟨Nat.pos_of_ne_zero zero, ?_⟩
  cases kind with
  | fifo =>
    obtain ⟨_, finished, -⟩ := bind_eq_ok_iff.mp built
    refine ⟨fun n => .fifo (.empty n b.overhead), fun n pos => ⟨?_, .fifo n b.overhead, rfl⟩⟩
    simp only [build, if_neg (Nat.ne_of_gt pos), parsed, finished, bind, Except.bind]
    rfl
  | lru =>
    obtain ⟨_, finished, -⟩ := bind_eq_ok_iff.mp built
    refine ⟨fun n => .lru (.empty n b.overhead), fun n pos => ⟨?_, .lru n b.overhead, rfl⟩⟩
    simp only [build, if_neg (Nat.ne_of_gt pos), parsed, finished, bind, Except.bind]
    rfl
  | clock =>
    obtain ⟨clock, accepted, -⟩ := bind_eq_ok_iff.mp built
    obtain ⟨⟨bits, rest⟩, width, accepted⟩ := bind_eq_ok_iff.mp accepted
    obtain ⟨_, finished, accepted⟩ := bind_eq_ok_iff.mp accepted
    by_cases supported : Clock.supportedBits (bits.getD 1) = true
    · refine ⟨fun n => .clock ⟨.empty n b.overhead, Clock.ceiling (bits.getD 1), 0⟩, fun n pos =>
        ⟨?_, .clock n b.overhead (bits.getD 1) (if_pos supported), rfl⟩⟩
      simp only [build, if_neg (Nat.ne_of_gt pos), parsed, Clock.ofParams, width, finished,
        if_pos supported, bind, Except.bind]
      rfl
    · rw [if_neg supported] at accepted
      cases accepted
  | sieve =>
    obtain ⟨_, finished, -⟩ := bind_eq_ok_iff.mp built
    refine ⟨fun n => .sieve (.empty n b.overhead), fun n pos => ⟨?_, .sieve n b.overhead, rfl⟩⟩
    simp only [build, if_neg (Nat.ne_of_gt pos), parsed, finished, bind, Except.bind]
    rfl
  | arc =>
    obtain ⟨_, finished, -⟩ := bind_eq_ok_iff.mp built
    refine ⟨fun n => .arc (.empty n b.overhead), fun n pos => ⟨?_, .arc n b.overhead, rfl⟩⟩
    simp only [build, if_neg (Nat.ne_of_gt pos), parsed, finished, bind, Except.bind]
    rfl
  | glcache =>
    obtain ⟨cache, accepted, -⟩ := bind_eq_ok_iff.mp built
    obtain ⟨config, accepted, -⟩ := bind_eq_ok_iff.mp accepted
    have valid := GLCache.Config.validate_of_ofParams accepted
    refine ⟨fun n => .glcache (.ofConfig n b.overhead config b.startModel), fun n pos =>
      ⟨?_, .glcache n b.overhead b.startModel valid, rfl⟩⟩
    simp only [build, if_neg (Nat.ne_of_gt pos), parsed, GLCache.Cache.ofParams, accepted, bind, Except.bind]
    rfl

/-- The statistics of a cache that is built at a capacity and simulated by itself. -/
def Alone (b : Blueprint μ) (kind : PolicyKind) (rs : List Request) (w : Warmup) (n : Nat)
    (stats : Statistics) : Prop :=
  ∃ c d, { b with capacity := n }.build kind = .ok c ∧ simulate rs c w = .ok (stats, d)

theorem Alone.capacity_eq {rs : List Request} {w : Warmup} {n : Nat} {stats : Statistics}
    (alone : b.Alone kind rs w n stats) : stats.capacity = n := by
  obtain ⟨c, d, built, run⟩ := alone
  obtain ⟨pos, resized, all⟩ := exists_fresh built
  obtain ⟨again, fresh, capacity⟩ := all n pos
  obtain rfl : c = resized n := Except.ok.inj (built.symm.trans again)
  rw [fresh.capacity_of_simulate run, capacity]

theorem capacities_eq {rs : List Request} {w : Warmup} {sizes : List Nat} {stats : List Statistics}
    (alone : List.Forall₂ (b.Alone kind rs w) sizes stats) : stats.map (·.capacity) = sizes := by
  induction alone with
  | nil => rfl
  | cons first _ ih => rw [List.map_cons, first.capacity_eq, ih]

theorem alone_iff {rs : List Request} {w : Warmup} {n : Nat} {stats : Statistics}
    {c : AnyCache (Boosted ⊕ μ)} (built : { b with capacity := n }.build kind = .ok c) :
    b.Alone kind rs w n stats ↔ (do
      let (stats, _) ← simulate rs c w
      pure stats) = .ok stats := by
  rw [bind_eq_ok_iff]
  constructor
  · rintro ⟨c', d, again, run⟩
    obtain rfl : c' = c := Except.ok.inj (again.symm.trans built)
    exact ⟨(stats, d), run, rfl⟩
  · rintro ⟨⟨_, d⟩, run, e⟩
    cases e
    exact ⟨c, d, built, run⟩

theorem forall₂_alone_iff {rs : List Request} {w : Warmup} {sizes : List Nat}
    {caches : List (AnyCache (Boosted ⊕ μ))}
    (built : List.Forall₂ (fun n c => { b with capacity := n }.build kind = .ok c) sizes caches)
    {stats : List Statistics} : List.Forall₂ (b.Alone kind rs w) sizes stats ↔ (caches.mapM fun c => do
      let (stats, _) ← simulate rs c w
      pure stats) = .ok stats := by
  rw [mapM_eq_ok_iff]
  induction built generalizing stats with
  | nil => simp only [List.forall₂_nil_left_iff]
  | cons here _ ih => simp only [List.forall₂_cons_left_iff, alone_iff here, ih]

/-- Caches of several capacities do not notice each other. -/
theorem simulateAt_eq_ok_iff {n₀ : Nat} {c : AnyCache (Boosted ⊕ μ)}
    (valid : { b with capacity := n₀ }.build kind = .ok c) {sizes : List Nat} (pos : ∀ n ∈ sizes, 0 < n)
    (rs : List Request) (w : Warmup) (r : Except ConfigError (List Statistics)) :
    simulateAt rs b kind sizes w = .ok r ↔
      ∃ stats, r = .ok stats ∧ List.Forall₂ (b.Alone kind rs w) sizes stats := by
  obtain ⟨-, resized, all⟩ := exists_fresh valid
  have built : List.Forall₂ (fun n c => { b with capacity := n }.build kind = .ok c) sizes
      (sizes.map resized) := by
    rw [List.forall₂_map_right_iff, List.forall₂_same]
    exact fun n hn => (all n (pos n hn)).1
  rw [simulateAt, buildAll, mapM_eq_ok_iff.mpr built]
  dsimp only
  rw [bind_eq_ok_iff]
  simp only [← forall₂_alone_iff built]
  constructor
  · rintro ⟨stats, runs, e⟩
    cases e
    exact ⟨stats, rfl, runs⟩
  · rintro ⟨stats, rfl, runs⟩
    exact ⟨stats, runs, rfl⟩

/--
A sweep of a blueprint that can be built at all covers the positive multiples of the step up to the
limit in increasing order: it answers exactly if a simulation of each capacity by itself does, with
their statistics. But if the first multiple beyond the limit is no word, or the number of the next
one, it overflows.
-/
theorem simulateSteps_multiples (valid : ∃ n c, { b with capacity := n }.build kind = .ok c)
    {step : Nat} (pos : 0 < step) (limit : Nat) (rs : List Request) (w : Warmup) :
    (Passable step limit → ∃ sizes : List Nat, sizes.Pairwise (· < ·) ∧
      (∀ n, n ∈ sizes ↔ 0 < n ∧ n ≤ limit ∧ step ∣ n) ∧
      ∀ r, simulateSteps rs b kind step limit w = .ok r ↔ ∃ stats, r = .ok stats ∧
        stats.map (·.capacity) = sizes ∧ List.Forall₂ (b.Alone kind rs w) sizes stats) ∧
    (¬Passable step limit → simulateSteps rs b kind step limit w = .error .overflow) := by
  obtain ⟨n₀, c, valid⟩ := valid
  have sizes := multiplesFrom_eq pos (Nat.le_add_left 1 (limit / step))
  constructor
  · intro passable
    refine ⟨multiples step limit, pairwise_multiples pos limit, mem_multiples pos limit, fun r => ?_⟩
    rw [if_pos passable, Nat.add_sub_cancel] at sizes
    change multiplesFrom step limit 1 = .ok (multiples step limit) at sizes
    rw [simulateSteps, if_neg (Nat.ne_of_gt pos), sizes, ok_bind]
    have some : ∀ n ∈ multiples step limit, 0 < n := fun n hn => ((mem_multiples pos limit n).mp hn).1
    rw [simulateAt_eq_ok_iff valid some]
    apply exists_congr
    intro stats
    apply and_congr_right
    rintro -
    exact ⟨fun alone => ⟨capacities_eq alone, alone⟩, And.right⟩
  · intro impassable
    rw [if_neg impassable] at sizes
    rw [simulateSteps, if_neg (Nat.ne_of_gt pos), sizes]
    rfl

theorem simulateSteps_multiples_forty :
    { (.ofCapacity 0 : Blueprint Boosted) with capacity := 1 }.build .lru = .ok (.lru (.empty 1 0)) ∧
      Passable 40 100 ∧ ∃ sizes : List Nat, sizes.Pairwise (· < ·) ∧
        (∀ n, n ∈ sizes ↔ 0 < n ∧ n ≤ 100 ∧ 40 ∣ n) ∧
        ∀ r, simulateSteps [.ofId 1 50 0, .ofId 1 50 1] (.ofCapacity 0 : Blueprint Boosted) .lru 40 100
            .none = .ok r ↔ ∃ stats, r = .ok stats ∧ stats.map (·.capacity) = sizes ∧
          List.Forall₂ ((.ofCapacity 0 : Blueprint Boosted).Alone .lru [.ofId 1 50 0, .ofId 1 50 1] .none)
            sizes stats := by
  have valid : { (.ofCapacity 0 : Blueprint Boosted) with capacity := 1 }.build .lru =
      .ok (.lru (.empty 1 0)) := rfl
  have passable : Passable 40 100 := by decide
  exact ⟨valid, passable, (simulateSteps_multiples ⟨1, _, valid⟩ (by decide) 100 _ .none).1 passable⟩

/-- Twice the step is no word here, so the sweep overflows although the step is its only capacity. -/
theorem simulateSteps_overflows :
    (.ofCapacity 1 : Blueprint Boosted).build .fifo = .ok (.fifo (.empty 1 0)) ∧
      multiples (2 ^ 63) (2 ^ 64 - 1) = [2 ^ 63] ∧
      simulateAt [.ofId 1 1 0] (.ofCapacity 1 : Blueprint Boosted) .fifo [2 ^ 63] .none =
        .ok (.ok [⟨"FIFO", 2 ^ 63, 1, 1, 1, 1, 0, 0, 1, 1⟩]) ∧
      simulateSteps [.ofId 1 1 0] (.ofCapacity 1 : Blueprint Boosted) .fifo (2 ^ 63) (2 ^ 64 - 1) .none =
        .error .overflow := by
  refine ⟨rfl, by decide, by cbv, ?_⟩
  rw [simulateSteps, if_neg (by decide), multiplesFrom_eq (by decide) (by decide), if_neg (by decide)]
  rfl

end Blueprint
end CacheReplay
