import CacheReplay.Proofs.Outcome
import CacheReplay.Workload

set_option autoImplicit false

namespace CacheReplay
open Randomness

namespace SizeRule

/-- The numbers of a rule are words. -/
def Words : SizeRule → Prop
  | .fixed size => IsWord size
  | .perKey low high => IsWord low ∧ IsWord high

instance (rule : SizeRule) : Decidable rule.Words := by
  cases rule <;> unfold Words <;> infer_instance

def Allows : SizeRule → Nat → Prop
  | .fixed size, n => n = max size 1
  | .perKey low high, n => max low 1 ≤ n ∧ n ≤ max high (max low 1)

theorem yields_sizeOf {rule : SizeRule} (words : rule.Words) (key seed : Nat) :
    Yields (rule.sizeOf key seed) rule.Allows := by
  cases rule with
  | fixed size => exact yields_pure rfl
  | perKey low high =>
    have ordered := (perKey low high).least_le_most
    have positive := (perKey low high).least_pos
    have word : IsWord (perKey low high).most := by
      have bound : 1 < wordBound := by decide
      exact Nat.max_lt.mpr ⟨words.2, Nat.max_lt.mpr ⟨words.1, bound⟩⟩
    have offset : (scramble (UInt64.ofNat key ^^^ UInt64.ofNat seed)).toNat %
        ((perKey low high).most - (perKey low high).least + 1) <
          (perKey low high).most - (perKey low high).least + 1 := Nat.mod_lt _ (Nat.add_one_pos _)
    unfold sizeOf
    rw [subWord_of_le ordered, ok_bind, addWord_of_isWord (word.of_le (by omega)), ok_bind,
      modWord_of_pos (Nat.add_one_pos _), ok_bind, addWord_of_isWord (word.of_le (by omega))]
    exact yields_pure ⟨Nat.le_add_right .., Nat.add_le_of_le_sub' ordered (Nat.le_of_lt_succ offset)⟩

end SizeRule

theorem PowerLaw.yields_sample {z : PowerLaw} (some : 0 < z.n) (u : Float) :
    Yields (z.sample u) (· < z.n) := by
  unfold sample
  dsimp only
  rw [subWord_of_le some]
  split
  · exact yields_pure some
  · split
    · exact yields_pure (by omega)
    · exact yields_pure (by omega)

namespace Workload

structure Words (w : Workload) : Prop where
  keys : IsWord w.keys
  sizes : w.sizes.Words

theorem yields_draw {low high : Nat} (some : low < high) (g : Generator) :
    Yields (draw low high g) fun p => low ≤ p.1 ∧ p.1 < high := by
  have below : (g.below (high - low)).1 < high - low := Generator.below_lt (Nat.sub_pos_of_lt some) g
  unfold draw
  rw [if_pos some]
  exact yields_pure ⟨Nat.le_add_right .., Nat.add_lt_of_lt_sub' below⟩

theorem yields_hotKey {count : Nat} (some : 0 < count) (fraction probability : Float) (g : Generator) :
    Yields (hotKey count fraction probability g) (·.1 < count) := by
  have hot : Yields (hotCount count fraction) fun hot => 0 < hot ∧ hot ≤ count := by
    unfold hotCount clampWord
    rw [if_neg (Nat.not_lt.mpr some)]
    exact yields_pure (by omega)
  apply yields_bind hot
  rintro hot ⟨pos, le⟩
  dsimp only
  split
  · exact (yields_draw pos _).mono fun p drawn => Nat.lt_of_lt_of_le drawn.2 le
  · split
    · exact (yields_draw some _).mono fun p drawn => drawn.2
    · exact (yields_draw (by omega) _).mono fun p drawn => drawn.2

variable {w : Workload}

theorem keyCount_pos (w : Workload) : 0 < w.keyCount := Nat.lt_of_lt_of_le Nat.one_pos (Nat.le_max_right ..)

theorem pace_pos (w : Workload) : 0 < w.pace := Nat.lt_of_lt_of_le Nat.one_pos (Nat.le_max_right ..)

theorem yields_nextKey (words : w.Words) {s : Stream} (scanned : s.scanned < w.keyCount) :
    Yields (w.nextKey w.law? s) fun p =>
      p.1 < w.keyCount ∧ p.2.scanned < w.keyCount ∧ p.2.generated = s.generated := by
  unfold nextKey
  cases popularity : w.popularity with
  | uniform =>
    apply yields_bind (yields_draw w.keyCount_pos s.random)
    exact fun p drawn => yields_pure ⟨drawn.2, scanned, rfl⟩
  | hotset fraction probability =>
    apply yields_bind (yields_hotKey w.keyCount_pos fraction probability s.random)
    exact fun p drawn => yields_pure ⟨drawn, scanned, rfl⟩
  | scan =>
    have next : IsWord (s.scanned + 1) := by
      have keys := words.keys
      have bound : 1 < wordBound := by decide
      unfold keyCount at scanned
      unfold IsWord at keys ⊢
      omega
    dsimp only
    rw [addWord_of_isWord next, ok_bind, modWord_of_pos w.keyCount_pos, ok_bind]
    exact yields_pure ⟨scanned, Nat.mod_lt _ w.keyCount_pos, rfl⟩
  | zipfian theta =>
    have law : w.law? = some (.ofTheta w.keyCount theta) := by rw [law?, popularity]
    dsimp only
    rw [law]
    apply yields_bind (PowerLaw.yields_sample (z := .ofTheta w.keyCount theta) w.keyCount_pos _)
    exact fun k sampled => yields_pure ⟨sampled, scanned, rfl⟩

/-- What is true of the request that a stream makes after `i` others. -/
structure Makes (w : Workload) (i : Nat) (r : Request) : Prop where
  key : r.id < w.keyCount
  size : w.sizes.sizeOf r.id w.seed = .ok r.size
  time : r.time = timeOfWord (i / w.pace)

theorem yields_nextRequest (words : w.Words) {s : Stream} (scanned : s.scanned < w.keyCount)
    (room : IsWord (s.generated + 1)) :
    Yields (w.nextRequest w.law? s) fun p =>
      w.Makes s.generated p.1 ∧ p.2.scanned < w.keyCount ∧ p.2.generated = s.generated + 1 := by
  apply yields_bind (yields_nextKey words scanned)
  rintro ⟨key, s'⟩ ⟨below, scanned', same⟩
  obtain ⟨size, sized, -⟩ := SizeRule.yields_sizeOf words.sizes key w.seed
  dsimp only at below scanned' same ⊢
  rw [same, divWord_of_pos w.pace_pos, ok_bind, addWord_of_isWord room, ok_bind, sized, ok_bind]
  refine yields_pure ⟨⟨below, sized, ?_⟩, scanned', rfl⟩
  dsimp only [Request.ofId]

/-- Each request is what its place in the stream says, by induction on how many are left to make. -/
theorem yields_requestsFrom (words : w.Words) (n : Nat) {s : Stream} (scanned : s.scanned < w.keyCount)
    (room : IsWord (s.generated + n)) :
    Yields (w.requestsFrom w.law? n s) fun rs =>
      rs.length = n ∧ ∀ i r, rs[i]? = some r → w.Makes (s.generated + i) r := by
  induction n generalizing s with
  | zero => exact yields_pure ⟨rfl, fun i r at_i => nomatch at_i⟩
  | succ n ih =>
    apply yields_bind (yields_nextRequest words scanned (room.of_le (by omega)))
    rintro ⟨first, s'⟩ ⟨made, scanned', later⟩
    dsimp only at made scanned' later ⊢
    apply yields_bind (ih scanned' (by rw [later]; exact room.of_le (by omega)))
    rintro rs ⟨length, rest⟩
    refine yields_pure ⟨congrArg (· + 1) length, fun i r at_i => ?_⟩
    cases i with
    | zero => exact Option.some.inj at_i ▸ made
    | succ i =>
      have at_rest := rest i r at_i
      rwa [later, Nat.add_right_comm] at at_rest

/--
Whatever the law of popularity and its parameters, the bounds of the sizes and the rate, a stream
makes any number of requests that a counter can hold. Keys stay below their number, where none counts
as one; each key has one size, in the range of the rule with its bounds in order and at least one; and
the time of a request is its place divided by the rate, at least one per second.
-/
theorem requests_in_range (w : Workload) (words : w.Words) :
    ∃ size : Nat → Nat, (∀ key, w.sizes.Allows (size key)) ∧
      ∀ n, IsWord n → ∃ rs, w.requests n = .ok rs ∧ rs.length = n ∧
        ∀ i r, rs[i]? = some r →
          r.id < max w.keys 1 ∧ r.size = size r.id ∧ r.time = timeOfWord (i / max w.rate 1) ∧
            (IsTime ↑(i / max w.rate 1) → r.time = ↑(i / max w.rate 1)) := by
  choose size sized allowed using fun key => SizeRule.yields_sizeOf words.sizes key w.seed
  refine ⟨size, allowed, fun n room => ?_⟩
  have start : IsWord (w.start.generated + n) := by rwa [start, Nat.zero_add]
  obtain ⟨rs, made, length, all⟩ := yields_requestsFrom words n (s := w.start) w.keyCount_pos start
  refine ⟨rs, made, length, fun i r at_i => ?_⟩
  have makes := all i r at_i
  have place : w.start.generated + i = i := Nat.zero_add i
  rw [place] at makes
  have same : r.size = size r.id := Except.ok.inj (makes.size.symm.trans (sized r.id))
  exact ⟨makes.key, same, makes.time, fun time => makes.time.trans (timeOfWord_of_isTime time)⟩

def threeKeys : Workload := ⟨3, .scan, 7, .perKey 20 10, 4⟩

theorem requests_in_range_threeKeys :
    threeKeys.Words ∧ ∃ size : Nat → Nat, (∀ key, threeKeys.sizes.Allows (size key)) ∧
      ∀ n, IsWord n → ∃ rs, threeKeys.requests n = .ok rs ∧ rs.length = n ∧
        ∀ i r, rs[i]? = some r →
          r.id < 3 ∧ r.size = size r.id ∧ r.time = timeOfWord (i / 4) ∧
            (IsTime ↑(i / 4) → r.time = ↑(i / 4)) :=
  have words : threeKeys.Words := ⟨by decide, by decide⟩
  ⟨words, requests_in_range threeKeys words⟩

example : (threeKeys.requests 5).toOption.map (·.map fun r => (r.id, r.size, r.time)) =
    some [(0, 20, 0), (1, 20, 0), (2, 20, 0), (0, 20, 0), (1, 20, 1)] := by decide +kernel

end Workload
end CacheReplay
