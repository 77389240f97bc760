import CacheReplay.Proofs.Expiry
import CacheReplay.Proofs.Simulation.Replay

set_option autoImplicit false

namespace CacheReplay
open EvictionPolicy

/-- A request whose hint is put off by some logical time. -/
def Request.postponed (r : Request) (n : Int) : Request := { r with next := r.next.map (· + n) }

theorem Shift.apply_postponed (base n : Int) (r : Request) :
    Shift.apply ⟨base, 0⟩ (r.postponed n) = Shift.apply ⟨base, n⟩ r := by
  obtain ⟨id, size, time, next, ttl⟩ := r
  cases next with
  | none => rfl
  | some next =>
    have same : addTime (next + n) 0 = addTime next n := by simp [addTime]
    simp only [apply, Request.postponed, Option.map_some, Option.mapM_some, same]

theorem firstTime?_append (w t : List Request) :
    firstTime? (w ++ t) = (firstTime? w).or (firstTime? t) := by
  cases w <;> simp [firstTime?]

theorem firstTime?_postponed (n : Int) (t : List Request) :
    firstTime? (t.map (·.postponed n)) = firstTime? t := by
  cases t <;> rfl

theorem sizes_postponed (n : Int) (t : List Request) :
    (t.map (·.postponed n)).map (·.size) = t.map (·.size) := by
  rw [List.map_map]
  rfl

theorem missedBytes_postponed (n : Int) (t : List Request) (hits : List Bool) :
    missedBytes (t.map (·.postponed n)) hits = missedBytes t hits := by
  induction t generalizing hits with
  | nil => rfl
  | cons r t ih =>
    cases hits with
    | nil => rfl
    | cons hit hits =>
      simp only [List.map_cons, missedBytes, ih]
      rfl

section
variable {σ : Type} [EvictionPolicy σ]

theorem attend_postponed (base n : Int) (t : List Request) (s : σ) :
    attend ⟨base, 0⟩ (t.map (·.postponed n)) s = attend ⟨base, n⟩ t s := by
  induction t generalizing s with
  | nil => rfl
  | cons r t ih => simp only [List.map_cons, attend, Shift.apply_postponed, ih]

theorem attend_rebased (w t : List Request) (offset : Int) (s : σ) :
    attend ⟨((firstTime? w).or (firstTime? t)).getD 0, offset⟩ w s =
      attend ⟨(firstTime? w).getD 0, offset⟩ w s := by
  cases w <;> rfl

theorem CountsUp.attend (counts : CountsUp σ) (shift : Shift) (rs : List Request) (s : σ) :
    Settles .any (attend shift rs s) fun p => (account s).expired ≤ (account p.2).expired := by
  induction rs generalizing s with
  | nil => exact settles_pure (Nat.le_refl _)
  | cons r rs ih =>
    apply settles_bind (settles_any (shift.apply r))
    intro req _
    apply settles_bind (counts.serve s req)
    intro p more
    exact settles_bind (ih p.2) fun q later => settles_pure (more.trans later)

/-- The statistics of a simulation followed by another one. -/
def Statistics.join (first second : Statistics) : Statistics :=
  { second with
    requests := first.requests + second.requests
    misses := first.misses + second.misses
    requestBytes := first.requestBytes + second.requestBytes
    missBytes := first.missBytes + second.missBytes
    warmupRequests := first.warmupRequests
    expired := first.expired + second.expired }

theorem Statistics.ofAnswers_join {b d : σ} {w t : List Request} {warm rest : List Bool} {n expired : Nat}
    (same : warm.length = w.length) (grown : expired ≤ (account b).expired)
    (later : (account b).expired ≤ (account d).expired) :
    (Statistics.ofAnswers b 0 expired w warm).join (.ofAnswers d n (account b).expired t rest) =
      .ofAnswers d 0 expired (w ++ t.map (·.postponed n)) (warm ++ rest) := by
  simp only [join, ofAnswers, List.length_append, List.length_map, List.count_append, List.map_append,
    sizes_postponed, List.sum_append, missedBytes_append same, missedBytes_postponed]
  congr 1
  omega

theorem simulate_none_eq_ok_iff (rs : List Request) (s d : σ) (stats : Statistics) :
    simulate rs s .none = .ok (stats, d) ↔ ∃ hits,
      attend ⟨(firstTime? rs).getD 0, 0⟩ rs s = .ok (hits, d) ∧ IsWord (rs.map (·.size)).sum ∧
      (account s).expired ≤ (account d).expired ∧
      stats = .ofAnswers d 0 (account s).expired rs hits := by
  have cold : ∀ (shift : Shift) (warm : List Bool) (b : σ),
      attend shift Warmup.none.preamble s = .ok (warm, b) ↔ warm = [] ∧ b = s :=
    fun shift warm b => attend_nil_eq_ok_iff shift s b warm
  simp only [simulate_eq_ok_iff Warmup.apart_none, cold]
  constructor
  · rintro ⟨_, _, hits, ⟨rfl, rfl⟩, rest⟩
    exact ⟨hits, rest⟩
  · rintro ⟨hits, rest⟩
    exact ⟨[], s, hits, ⟨rfl, rfl⟩, rest⟩

/--
The simulation of two traces in a row takes the state where the simulations of
the first one and of the second one, warmed up with the first, take it; its
counters are the sums of theirs.
-/
theorem simulate_append_eq_ok_iff (counts : CountsUp σ) (w t : List Request) (c d : σ)
    (all : Statistics) :
    simulate (w ++ t.map (·.postponed w.length)) c .none = .ok (all, d) ↔
      ∃ first b second, simulate w c .none = .ok (first, b) ∧
        simulate t c (.trace w) = .ok (second, d) ∧ all = first.join second ∧
        IsWord all.requestBytes := by
  have sizes : ((w ++ t.map (·.postponed w.length)).map (·.size)).sum =
      (w.map (·.size)).sum + (t.map (·.size)).sum := by
    rw [List.map_append, sizes_postponed, List.sum_append]
  -- Both parts of the long replay are shifted by the base that the first request of all sets.
  have base : (firstTime? (w ++ t.map (·.postponed w.length))).getD 0 =
      ((firstTime? w).or (firstTime? t)).getD 0 := by
    rw [firstTime?_append, firstTime?_postponed]
  have warming : ∀ warm b, attend { (Warmup.trace w).shift t with offset := 0 }
      (Warmup.trace w).preamble c = .ok (warm, b) ↔
        attend ⟨(firstTime? w).getD 0, 0⟩ w c = .ok (warm, b) := by
    intro warm b
    rw [← attend_rebased w t]
    rfl
  simp only [simulate_none_eq_ok_iff, simulate_eq_ok_iff (Warmup.apart_trace w), warming, base,
    attend_append_eq_ok_iff, attend_rebased]
  constructor
  · rintro ⟨_, ⟨warm, b, rest, first, second, rfl⟩, word, -, rfl⟩
    have grown := counts.attend ⟨(firstTime? w).getD 0, 0⟩ w c
    rw [first] at grown
    rw [attend_postponed] at second
    have later := counts.attend ((Warmup.trace w).shift t) t b
    rw [show attend ((Warmup.trace w).shift t) t b = .ok (rest, d) from second] at later
    rw [sizes] at word
    refine ⟨_, b, _, ⟨warm, first, word.of_le (Nat.le_add_right ..), grown, rfl⟩,
      ⟨warm, b, rest, first, second, word.of_le (Nat.le_add_left ..), later, rfl⟩,
      (Statistics.ofAnswers_join (length_of_attend first) grown later).symm, ?_⟩
    show IsWord ((w ++ t.map (·.postponed w.length)).map (·.size)).sum
    rw [sizes]
    exact word
  · rintro ⟨_, b, _, ⟨warm, first, -, grown, rfl⟩, ⟨_, _, rest, again, second, -, later, rfl⟩, rfl, word⟩
    rw [first] at again
    cases again
    refine ⟨warm ++ rest, ⟨warm, b, rest, first, ?_, rfl⟩, ?_, grown.trans later,
      Statistics.ofAnswers_join (length_of_attend first) grown later⟩
    · rw [attend_postponed]
      exact second
    · exact sizes ▸ word

end

namespace AnyCache
open Regression
variable {μ : Type} [Regressor μ]

/--
Warming a cache up with a trace is replaying it first. On a fresh cache of any
policy, the simulation of both traces in a row, where the hints of the second
one are put off by the length of the first, has a result unless arithmetic
leaves its range or the model faults. It has that result exactly if both parts
have theirs and the bytes of all requests are a word: then it ends in the state
of the warmed-up simulation, and its counters are the sums.
-/
theorem simulate_append {c : AnyCache μ} (fresh : c.Fresh) (w t : List Request) :
    (Settles (.ofModel μ) (simulate (w ++ t.map (·.postponed w.length)) c .none) fun _ => True) ∧
    ∀ (d : AnyCache μ) (all : Statistics),
      simulate (w ++ t.map (·.postponed w.length)) c .none = .ok (all, d) ↔
        ∃ first b second, simulate w c .none = .ok (first, b) ∧
          simulate t c (.trace w) = .ok (second, d) ∧ all = first.join second ∧
          IsWord all.requestBytes := by
  obtain ⟨sound, dependable, hc⟩ := fresh.dependable
  have answers := dependable.settles_simulate .none (w ++ t.map (·.postponed w.length)) c hc
  exact ⟨answers.mono fun _ _ => trivial, simulate_append_eq_ok_iff countsUp w t c⟩

theorem simulate_append_recency :
    (Settles (.ofModel Boosted) (simulate ([.ofId 1 5 7] ++ [⟨1, 5, 9, some 2, some 1⟩, .ofId 1 5 12].map
      fun r : Request => r.postponed [Request.ofId 1 5 7].length)
      (.lru (.empty 10 0) : AnyCache Boosted) .none) fun _ => True) ∧
    ∀ (d : AnyCache Boosted) (all : Statistics),
      simulate ([.ofId 1 5 7] ++ [⟨1, 5, 9, some 2, some 1⟩, .ofId 1 5 12].map
        fun r : Request => r.postponed [Request.ofId 1 5 7].length)
        (.lru (.empty 10 0)) .none = .ok (all, d) ↔
        ∃ first b second,
          simulate [.ofId 1 5 7] (.lru (.empty 10 0) : AnyCache Boosted) .none = .ok (first, b) ∧
          simulate [⟨1, 5, 9, some 2, some 1⟩, .ofId 1 5 12] (.lru (.empty 10 0))
            (.trace [.ofId 1 5 7]) = .ok (second, d) ∧
          all = first.join second ∧ IsWord all.requestBytes :=
  simulate_append (.lru 10 0) [.ofId 1 5 7] [⟨1, 5, 9, some 2, some 1⟩, .ofId 1 5 12]

example : (simulate [⟨1, 5, 9, some 2, some 1⟩, .ofId 1 5 12] (.lru (.empty 10 0) : AnyCache Boosted)
    (.trace [.ofId 1 5 7])).toOption.map (·.1) = some ⟨"LRU", 10, 2, 0, 10, 0, 1, 0, 1, 5⟩ := by cbv

end AnyCache
end CacheReplay
