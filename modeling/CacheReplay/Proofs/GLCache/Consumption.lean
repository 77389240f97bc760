import CacheReplay.Proofs.GLCache.Fading
import CacheReplay.Proofs.GLCache.Rounds
import Mathlib.Data.List.Chain

set_option autoImplicit false

namespace CacheReplay.GLCache
open Regression

namespace Chooser

/-- Beyond the fraction of a ranking after which a candidate without a run ends the search. -/
def RankedRule.Beyond (rule : RankedRule) (count p : Nat) : Prop :=
  Floating.ofNat count * rule.fallback < Floating.ofNat p

structure Leaves (c d : Chooser) : Prop where
  segments : d.table.segments = c.table.segments
  ranking : d.table.ranking = c.table.ranking

theorem Leaves.refl (c : Chooser) : c.Leaves c := ⟨rfl, rfl⟩

theorem Leaves.trans {c d e : Chooser} (h : c.Leaves d) (k : d.Leaves e) : c.Leaves e :=
  ⟨k.segments.trans h.segments, k.ranking.trans h.ranking⟩

theorem Leaves.rests {c d : Chooser} (h : c.Leaves d) : c.table.Rests d.table :=
  .of_same h.ranking (h.segments ▸ .refl _ _)

theorem leaves_oldest (c : Chooser) : c.Leaves c.oldest.2 := by
  unfold oldest
  split
  · exact .refl c
  · dsimp only
    split <;> exact ⟨rfl, rfl⟩

theorem Leaves.orOldest {c : Chooser} {p : Option Choice × Chooser} (h : c.Leaves p.2) :
    c.Leaves (Chooser.orOldest p).2 := by
  unfold Chooser.orOldest
  split
  · exact h
  · exact h.trans (leaves_oldest p.2)

theorem leaves_fifoRun (n tries : Nat) (c : Chooser) : c.Leaves (c.fifoRun n tries).2 := by
  induction tries generalizing c with
  | zero => exact leaves_oldest c
  | succ tries ih =>
    have passed : c.Leaves { c.setCursor c.turn none with turn := nextTurn c.turn } := ⟨rfl, rfl⟩
    unfold fifoRun
    dsimp only
    split
    · split <;> exact ⟨rfl, rfl⟩
    · exact passed.trans (ih _)

theorem leaves_weightedBucket (n : Nat) (ks : List Nat) (r : Nat) (c : Chooser) :
    c.Leaves (c.weightedBucket n ks r).2 := by
  induction ks generalizing r c with
  | nil => exact .refl c
  | cons k ks ih =>
    have reset : c.Leaves (c.setCursor k none) := ⟨rfl, rfl⟩
    unfold weightedBucket
    dsimp only
    split
    · exact ih r c
    · split
      · exact ih _ c
      · split
        · exact .refl c
        · exact reset.trans (ih r _)

theorem leaves_weightedRun (n : Nat) (c : Chooser) : c.Leaves (c.weightedRun n).2 := by
  unfold weightedRun
  split
  · exact .refl c
  · dsimp only
    have walked := leaves_weightedBucket n (List.range liveBuckets ++ List.range liveBuckets)
      (c.draw c.table.inUse).1 (c.draw c.table.inUse).2
    have drawn : c.Leaves (c.draw c.table.inUse).2 := ⟨rfl, rfl⟩
    generalize (c.draw c.table.inUse).2.weightedBucket n _ _ = q at walked ⊢
    obtain ⟨o, d⟩ := q
    cases o with
    | none => exact drawn.trans (walked.trans (leaves_oldest d))
    | some ki => exact drawn.trans (walked.trans ⟨rfl, rfl⟩)

theorem leaves_randomRun (n tries : Nat) (c : Chooser) : c.Leaves (c.randomRun n tries).2 := by
  induction tries generalizing c with
  | zero => exact leaves_oldest c
  | succ tries ih =>
    have turned : c.Leaves { c with turn := nextTurn c.turn } := ⟨rfl, rfl⟩
    unfold randomRun
    dsimp only
    split
    · exact turned.trans (ih _)
    · have drawn : c.Leaves (Chooser.draw { c with turn := nextTurn c.turn }
          (c.table.count c.turn - n)).2 := ⟨rfl, rfl⟩
      split
      · exact drawn
      · exact drawn.trans (ih _)

end Chooser

namespace Table
open Chooser

/-- `n` segments, each of which leads to the next one and is not the one being written. -/
structure RunFrom (a : Table) (consecutive : Bool) (n : Nat) (i : Slot) (run : List Slot) : Prop where
  head : run.head? = some i
  length : run.length = n
  leads : run.IsChain fun x y => a.neighbour consecutive x = some y
  inner : ∀ j ∈ run, (a.segments.nextOf j).isSome

section
variable {a b : Table} {consecutive : Bool} {n : Nat} {i : Slot} {run : List Slot}

theorem runFrom_of_mergeable (pos : 0 < n) (can : a.mergeable consecutive n (some i) = true) :
    a.RunFrom consecutive n i (a.run consecutive n (some i)).1 := by
  induction n generalizing i with
  | zero => omega
  | succ n ih =>
    simp only [mergeable, Bool.and_eq_true] at can
    simp only [Table.run]
    cases n with
    | zero =>
      refine ⟨rfl, rfl, .singleton i, fun j hj => ?_⟩
      rw [List.mem_singleton.mp hj]
      exact can.1
    | succ n =>
      cases next : a.neighbour consecutive i with
      | none =>
        rw [next] at can
        cases can.2
      | some j =>
        rw [next] at can
        have rest := ih (Nat.succ_pos n) can.2
        refine ⟨rfl, congrArg (· + 1) rest.length, List.isChain_cons.mpr ⟨fun y hy => ?_, rest.leads⟩,
          fun m hm => ?_⟩
        · rw [rest.head] at hy
          rw [next, hy]
        · rcases List.mem_cons.mp hm with rfl | hm
          · exact can.1
          · exact rest.inner m hm

theorem RunFrom.mergeable (h : a.RunFrom consecutive n i run) :
    a.mergeable consecutive n (some i) = true := by
  induction run generalizing n i with
  | nil => cases h.head
  | cons x rest ih =>
    have first : x = i := Option.some.inj h.head
    subst first
    rw [← h.length, List.length_cons, Table.mergeable, h.inner x List.mem_cons_self, Bool.true_and]
    cases rest with
    | nil => rfl
    | cons y rest =>
      have along := List.isChain_cons.mp h.leads
      rw [along.1 y rfl]
      exact ih ⟨rfl, rfl, along.2, fun j hj => h.inner j (List.mem_cons_of_mem x hj)⟩

theorem run_congr {P : Slot → Prop} (next : ∀ i, b.segments.nextOf i = a.segments.nextOf i)
    (same : ∀ i, P i → b.neighbour consecutive i = a.neighbour consecutive i)
    (closed : ∀ i j, P i → a.neighbour consecutive i = some j → P j) (n : Nat)
    {start : Option Slot} (hs : ∀ i, start = some i → P i) :
    b.mergeable consecutive n start = a.mergeable consecutive n start ∧
      b.run consecutive n start = a.run consecutive n start := by
  induction n generalizing start with
  | zero => exact ⟨rfl, rfl⟩
  | succ n ih =>
    cases start with
    | none => exact ⟨rfl, rfl⟩
    | some i =>
      have hi := hs i rfl
      obtain ⟨can, taken⟩ := @ih (a.neighbour consecutive i) fun j hj => closed i j hi hj
      constructor
      · simp only [Table.mergeable, next, same i hi, can]
      · simp only [Table.run, same i hi, taken]

/-- A link of a ranking is followed in two tables alike if what it names has a rank in both or in neither. -/
theorem rankedNext_congr (same : a.segments.Same (fun s => { s with rank := none }) b.segments)
    (ranks : ∀ s j u v, a.get? i = some s → s.nextRanked = some j → a.get? j = some u → b.get? j = some v →
      (v.rank.isSome ↔ u.rank.isSome)) : b.rankedNext i = a.rankedNext i := by
  have parts := same.of_comp (g := fun s => (s.bucket, s.nextRanked)) (fun s => (s.bucket, s.nextRanked))
    fun _ => rfl
  unfold rankedNext
  cases hs : a.get? i with
  | none =>
    rw [show b.get? i = none from (same.get?_eq_none_iff i).mpr hs]
    rfl
  | some s =>
    obtain ⟨t, ht, e⟩ := parts.get? hs
    obtain ⟨home, next⟩ := Prod.mk.inj e
    rw [show b.get? i = some t from ht]
    simp only [Option.bind_eq_bind, Option.bind_some, next]
    cases link : s.nextRanked with
    | none => rfl
    | some j =>
      simp only [Option.bind_some]
      cases hu : a.get? j with
      | none =>
        rw [show b.get? j = none from (same.get?_eq_none_iff j).mpr hu]
        rfl
      | some u =>
        obtain ⟨v, hv, e⟩ := parts.get? hu
        rw [show b.get? j = some v from hv]
        simp only [Option.bind_some, (Prod.mk.inj e).1, home, ranks s j u v hs link hu hv]

end

def Starts (a : Table) (rule : RankedRule) (i : Slot) : Prop :=
  ∃ run, a.RunFrom rule.consecutive rule.length i run

theorem starts_iff {a : Table} {rule : RankedRule} (pos : 0 < rule.length) {i : Slot} :
    a.Starts rule i ↔ a.mergeable rule.consecutive rule.length (some i) = true :=
  ⟨fun ⟨_, h⟩ => h.mergeable, fun can => ⟨_, runFrom_of_mergeable pos can⟩⟩

/-- Between two positions no candidate starts a run and none is beyond the fraction. -/
def Passed (a : Table) (rule : RankedRule) (pos p : Nat) : Prop :=
  ∀ q j, pos ≤ q → q < p → a.Names q j → ¬a.Starts rule j ∧ ¬rule.Beyond a.ranking.count q

def FirstFrom (a : Table) (pos : Nat) (i : Slot) : Prop :=
  ∃ q, pos ≤ q ∧ a.Names q i ∧ ∀ r j, pos ≤ r → r < q → ¬a.Names r j

/--
What a search of the ranking of `a` from a position on chooses, and what it leaves in `b`: the first
candidate that starts a run decides, unless one that starts none comes before it beyond the fraction.
-/
inductive Consumes (rule : RankedRule) (a : Table) (pos : Nat) (b : Table) : Option Choice → Prop
  | run {p i : Nat} {run : List Slot} (onward : pos ≤ p) (named : a.Names p i)
      (starts : a.RunFrom rule.consecutive rule.length i run) (passed : a.Passed rule pos p)
      (position : b.ranking.position = some (p + 1)) (picked : ∀ j ∈ run, b.Unranked j)
      (left : ∀ q j, pos ≤ q → q < p → a.Names q j → b.Unranked j) :
      Consumes rule a pos b (some (.merge run))
  | whole {p i first : Nat} (onward : pos ≤ p) (named : a.Names p i) (stuck : ¬a.Starts rule i)
      (beyond : rule.Beyond a.ranking.count p) (passed : a.Passed rule pos p)
      (lowest : a.FirstFrom pos first) (position : b.ranking.position = none) (picked : b.Unranked first)
      (left : ∀ q j, pos ≤ q → q < p → a.Names q j → b.Unranked j) :
      Consumes rule a pos b (some (.single first))
  | exhausted {choice : Option Choice} (passed : ∀ p, a.Passed rule pos p)
      (oldest : (∃ k < liveBuckets, ∃ i s, a.chainOf k = i :: s ∧ choice = some (.single i)) ∨
        choice = none ∧ ∀ k < liveBuckets, a.chainOf k = [])
      (position : b.ranking.position = none) (left : ∀ j, b.Unranked j) :
      Consumes rule a pos b choice

/-- A ranking that can be used: links, ranks and slots agree. -/
structure Ready (a : Table) (seqs : Nat → List Slot) : Prop where
  strung : a.Strung seqs none
  ranked : a.Ranked
  tidy : a.Tidy

end Table

namespace Chooser
variable {seqs : Nat → List Slot} {z a : Table} {rule : RankedRule} {pos position : Nat}
  {first : Option Slot} {c : Chooser}

/-- A search under way: what it has passed is out of the ranking, and what is to come is as it was. -/
structure Scanning (seqs : Nat → List Slot) (z : Table) (rule : RankedRule) (a : Table) (pos position : Nat)
    (first : Option Slot) (c : Chooser) : Prop where
  fit : c.Fit seqs z
  fades : a.Fades c.table
  same : a.segments.Same (fun s => { s with rank := none }) c.table.segments
  count : c.table.ranking.count = a.ranking.count
  onward : pos ≤ position
  later : ∀ q, position ≤ q → c.table.ranking.slots[q]? = a.ranking.slots[q]?
  gone : ∀ q < position, ∀ i, ¬c.table.Names q i
  passed : a.Passed rule pos position
  unnamed : first = none → ∀ q j, pos ≤ q → q < position → ¬a.Names q j
  lowest : ∀ i, first = some i → a.FirstFrom pos i ∧ c.table.Unranked i

theorem Fit.scanning (fit : c.Fit seqs z) (rule : RankedRule) (tidy : c.table.Tidy)
    (at_pos : c.table.ranking.position = some pos) : Scanning seqs z rule c.table pos pos none c where
  fit := fit
  fades := .refl _
  same := .refl _ _
  count := rfl
  onward := Nat.le_refl pos
  later _ _ := rfl
  gone := tidy.passed pos at_pos
  passed q j le lt := by omega
  unnamed _ q j le lt := by omega
  lowest i e := by cases e

namespace Scanning
variable (h : Scanning seqs z rule a pos position first c)
include h

theorem names_iff {q : Nat} (le : position ≤ q) (i : Slot) : c.table.Names q i ↔ a.Names q i := by
  rw [Table.Names, Table.Names, h.later q le]

theorem agree (ready : a.Ready seqs) {q : Nat} {i : Slot} (le : position ≤ q)
    (named : a.Names q i) :
    c.table.mergeable rule.consecutive rule.length (some i) =
        a.mergeable rule.consecutive rule.length (some i) ∧
      c.table.run rule.consecutive rule.length (some i) =
        a.run rule.consecutive rule.length (some i) := by
  have links : ∀ j, c.table.segments.nextOf j = a.segments.nextOf j := fun j =>
    congrArg (Option.bind · Links.next)
      (h.same.of_comp (g := Linked.links) Segment.links (fun _ => rfl) j)
  cases order : rule.consecutive with
  | true =>
    refine Table.run_congr (P := fun _ => True) links (fun j _ => ?_) (fun _ _ _ _ => trivial) _
      fun _ _ => trivial
    simp only [Table.neighbour, if_true, links]
  | false =>
    -- From a segment that is still to come, links lead to such segments only.
    refine Table.run_congr (P := fun j => ∃ s p, a.get? j = some s ∧ s.rank = some p ∧ position ≤ p) links
      (fun j hj => ?_) (fun j m hj next => ?_) _ fun j e => ?_
    · obtain ⟨s, p, hs, hp, ahead⟩ := hj
      refine Table.rankedNext_congr h.same fun s' m u v hs' link hu hv => ?_
      cases hs.symm.trans hs'
      constructor
      · intro some
        obtain ⟨q, hq⟩ := Option.isSome_iff_exists.mp some
        obtain ⟨w, hw, rank⟩ := h.fades.ranks m v q hv hq
        cases hu.symm.trans hw
        exact Option.isSome_iff_exists.mpr ⟨q, rank⟩
      · intro some
        obtain ⟨q, hq⟩ := Option.isSome_iff_exists.mp some
        have lt := ready.ranked.next j s m u p q hs hp link hu hq
        have still := (h.names_iff (by omega) m).mpr (ready.tidy.named m u q hu hq)
        obtain ⟨w, hw, rank⟩ := h.fit.settled.ranked.slots q m still
        cases hv.symm.trans hw
        exact Option.isSome_iff_exists.mpr ⟨q, rank⟩
    · obtain ⟨s, p, hs, hp, ahead⟩ := hj
      obtain ⟨v, u, hv, link, hu, -, some⟩ := Table.rankedNext_eq_some next
      cases hs.symm.trans hv
      obtain ⟨q, hq⟩ := Option.isSome_iff_exists.mp some
      have lt := ready.ranked.next j s m u p q hs hp link hu hq
      exact ⟨u, q, hu, hq, by omega⟩
    · cases e
      obtain ⟨s, hs, rank⟩ := ready.ranked.slots q i named
      exact ⟨s, q, hs, rank, le⟩

theorem starts_iff (ready : a.Ready seqs) (long : 0 < rule.length) {q : Nat} {i : Slot}
    (le : position ≤ q) (named : a.Names q i) :
    c.table.mergeable rule.consecutive rule.length (some i) = true ↔ a.Starts rule i := by
  rw [(h.agree ready le named).1, Table.starts_iff long]

theorem unranked (ranked : a.Ranked) {b : Table} (fades : c.table.Fades b) {q : Nat} {i : Slot}
    (lt : q < position) (named : a.Names q i) : b.Unranked i :=
  (h.fades.trans fades).unranked_of_not_names ranked named fun still => h.gone q lt i (fades.names q i still)

theorem firstFrom {i : Slot} (named : a.Names position i) : a.FirstFrom pos (first.getD i) := by
  cases e : first with
  | none => exact ⟨position, h.onward, named, h.unnamed e⟩
  | some j => exact (h.lowest j e).1

theorem skip (empty : c.table.ranking.slots[position]? = some none) :
    Scanning seqs z rule a pos (position + 1) first c := by
  have unnamed : ∀ i, ¬a.Names position i := by
    intro i named
    have here := (h.names_iff (Nat.le_refl _) i).mpr named
    rw [Table.Names, empty] at here
    cases here
  refine { h with
    onward := Nat.le_succ_of_le h.onward
    later := fun q le => h.later q (Nat.le_of_succ_le le)
    gone := fun q lt i named => ?_
    passed := fun q j le lt named => ?_
    unnamed := fun e q j le lt named => ?_ }
  · rcases Nat.lt_succ_iff_lt_or_eq.mp lt with before | rfl
    · exact h.gone q before i named
    · exact unnamed i ((h.names_iff (Nat.le_refl _) i).mp named)
  · rcases Nat.lt_succ_iff_lt_or_eq.mp lt with before | rfl
    · exact h.passed q j le before named
    · exact absurd named (unnamed j)
  · rcases Nat.lt_succ_iff_lt_or_eq.mp lt with before | rfl
    · exact h.unnamed e q j le before named
    · exact unnamed j named

theorem pass {i : Slot} (named : c.table.Names position i) (stuck : ¬a.Starts rule i)
    (inside : ¬rule.Beyond a.ranking.count position) :
    Scanning seqs z rule a pos (position + 1) (some (first.getD i))
      { c with table := c.table.clearRank i } := by
  have own := (h.names_iff (Nat.le_refl _) i).mp named
  have cleared := c.table.fades_clearRank i
  have unranked := c.table.unranked_clearRank i
  have settled := h.fit.settled.clearRank i
  have gone : ∀ j, ¬(c.table.clearRank i).Names position j := by
    intro j still
    have before := cleared.names position j still
    rw [Table.Names, named] at before
    cases before
    exact settled.ranked.not_names unranked position still
  constructor
  case fit => exact ⟨settled, h.fit.turn⟩
  case fades => exact h.fades.trans cleared
  case same => exact h.same.trans (c.table.same_clearRank i fun _ => rfl)
  case count => exact (c.table.clearRank_position i).2.trans h.count
  case onward => exact Nat.le_succ_of_le h.onward
  case later =>
    intro q le
    rcases c.table.slots_clearRank i q with same | ⟨twice, -⟩
    · exact same.trans (h.later q (Nat.le_of_succ_le le))
    · obtain ⟨s, hs, rank⟩ := h.fit.settled.ranked.slots q i twice
      obtain ⟨u, hu, rank'⟩ := h.fit.settled.ranked.slots position i named
      cases hs.symm.trans hu
      cases rank.symm.trans rank'
      omega
  case gone =>
    intro q lt j still
    rcases Nat.lt_succ_iff_lt_or_eq.mp lt with before | rfl
    · exact h.gone q before j (cleared.names q j still)
    · exact gone j still
  case passed =>
    intro q j le lt here
    rcases Nat.lt_succ_iff_lt_or_eq.mp lt with before | rfl
    · exact h.passed q j le before here
    · rw [Table.Names, own] at here
      cases here
      exact ⟨stuck, inside⟩
  case unnamed =>
    intro e
    cases e
  case lowest =>
    intro j e
    cases e
    refine ⟨h.firstFrom own, ?_⟩
    cases e : first with
    | none => exact unranked
    | some j => exact cleared.unranked (h.lowest j e).2

end Scanning

structure Consumed (rule : RankedRule) (a : Table) (pos : Nat) (p : Option Choice × Chooser) : Prop where
  consumes : a.Consumes rule pos p.2.table p.1
  fades : a.Fades p.2.table
  passed : ∀ q, p.2.table.ranking.position = some q → ∀ r < q, ∀ i, ¬p.2.table.Names r i

theorem Consumed.tidy {p : Option Choice × Chooser} (h : Consumed rule a pos p) (tidy : a.Tidy) :
    p.2.table.Tidy := tidy.of_fades h.fades h.passed

namespace Scanning
variable (h : Scanning seqs z rule a pos position first c)
include h

/-- Behind the last slot nothing has a rank, and the oldest segment of a bucket goes. -/
theorem exhausted (ready : a.Ready seqs) (last : c.table.ranking.slots.size ≤ position) :
    Consumed rule a pos (c.setPosition none).oldest := by
  have rests := (leaves_oldest (c.setPosition none)).rests
  have stale : c.table.Fades (c.setPosition none).table := .of_slots rfl fun i u p hu hp => ⟨u, hu, hp⟩
  have fades := stale.trans rests.toFades
  have position' : (c.setPosition none).oldest.2.table.ranking.position = none := rests.position
  have passed : ∀ p, (c.setPosition none).oldest.2.table.ranking.position = some p →
      ∀ q < p, ∀ i, ¬(c.setPosition none).oldest.2.table.Names q i := by
    intro p e
    rw [position'] at e
    cases e
  have nothing : ∀ q i, position ≤ q → ¬a.Names q i := by
    intro q i le named
    have here := (h.names_iff le i).mpr named
    rw [Table.Names, Array.getElem?_eq_none (by omega)] at here
    cases here
  refine ⟨.exhausted (fun p q j le lt named => ?_) ?_ position' fun j s hs => ?_, h.fades.trans fades, passed⟩
  · rcases Nat.lt_or_ge q position with before | behind
    · exact h.passed q j le before named
    · exact absurd named (nothing q j behind)
  · rw [funext ready.strung.chainOf_eq]
    exact (h.fit.setPosition none).fronts_oldest
  · by_contra some
    obtain ⟨p, hp⟩ := Option.ne_none_iff_exists'.mp some
    have still := (ready.tidy.of_fades (h.fades.trans fades) passed).named j s p hs hp
    rcases Nat.lt_or_ge p position with before | behind
    · exact h.gone p before j (fades.names p j still)
    · exact nothing p j behind ((h.fades.trans fades).names p j still)

theorem given_up (ready : a.Ready seqs) {i : Slot} (named : c.table.Names position i)
    (stuck : ¬a.Starts rule i) (beyond : rule.Beyond a.ranking.count position) :
    Consumed rule a pos (c.giveUp (first.getD i)) := by
  have own := (h.names_iff (Nat.le_refl _) i).mp named
  have lowest := h.firstFrom own
  generalize first.getD i = f at lowest ⊢
  obtain ⟨s, hs⟩ : ∃ s, c.table.get? f = some s := by
    obtain ⟨q, -, known, -⟩ := lowest
    obtain ⟨u, hu, -⟩ := ready.ranked.slots q f known
    obtain ⟨s, hs, -⟩ := h.same.get? hu
    exact ⟨s, hs⟩
  unfold giveUp
  rw [hs]
  dsimp only
  generalize hb : c.table.modifyBucket s.bucket _ = b
  have bucket : c.table.Fades b := hb ▸ .of_same rfl (.refl _ _)
  have stale : (b.clearRank f).Fades (Chooser.setPosition ⟨b.clearRank f, c.turn, c.random⟩ none).table :=
    .of_slots rfl fun i u p hu hp => ⟨u, hu, hp⟩
  have fades := bucket.trans ((b.fades_clearRank f).trans stale)
  refine ⟨.whole h.onward own stuck beyond h.passed lowest rfl ?_ fun q j le lt known => ?_,
    h.fades.trans fades, fun q e => by cases e⟩
  · exact stale.unranked (b.unranked_clearRank f)
  · exact h.unranked ready.ranked fades lt known

theorem taken (ready : a.Ready seqs) (long : 0 < rule.length) {i : Slot} (named : c.table.Names position i)
    (can : c.table.mergeable rule.consecutive rule.length (some i) = true) :
    Consumed rule a pos (takeRanked rule (c.setPosition (some (position + 1))) i) := by
  have own := (h.names_iff (Nat.le_refl _) i).mp named
  obtain ⟨can', run⟩ := h.agree ready (Nat.le_refl _) own
  have starts := Table.runFrom_of_mergeable long (can'.symm.trans can)
  have placed : (c.setPosition (some (position + 1))).table.run rule.consecutive rule.length (some i) =
      c.table.run rule.consecutive rule.length (some i) :=
    (Table.run_congr (a := c.table) (b := (c.setPosition (some (position + 1))).table)
      (P := fun _ => True) (fun _ => rfl) (fun _ _ => rfl) (fun _ _ _ _ => trivial) _
      fun _ _ => trivial).2
  have stale : c.table.Fades (c.setPosition (some (position + 1))).table :=
    .of_slots rfl fun i u p hu hp => ⟨u, hu, hp⟩
  have settled := (h.fit.setPosition (some (position + 1))).settled
  obtain ⟨s, hs, -⟩ := h.fit.settled.ranked.slots position i named
  unfold takeRanked
  rw [show (c.setPosition (some (position + 1))).table.get? i = some s from hs, placed, run]
  dsimp only
  generalize (a.run rule.consecutive rule.length (some i)).1 = run at starts ⊢
  obtain ⟨cleared, picked, position'⟩ :=
    Table.fades_clearRanks run (c.setPosition (some (position + 1))).table
  have ranked := (settled.clearRanks run).ranked
  have fades := stale.trans cleared
  have member : i ∈ run := List.mem_of_head? starts.head
  refine ⟨.run h.onward own starts h.passed position' picked fun q j le lt known => ?_,
    h.fades.trans (fades.trans (.of_same rfl (.refl _ _))), fun q e r lt j still => ?_⟩
  · exact h.unranked ready.ranked fades lt known
  · cases position'.symm.trans e
    have still : (run.foldl Table.clearRank (c.setPosition (some (position + 1))).table).Names r j := still
    rcases Nat.lt_succ_iff_lt_or_eq.mp lt with before | rfl
    · exact h.gone r before j (fades.names r j still)
    · have same := (h.fades.trans fades).names r j still
      rw [Table.Names, own] at same
      cases same
      exact ranked.not_names (picked i member) r still

end Scanning

theorem Scanning.consumed (h : Scanning seqs z rule a pos position first c) (ready : a.Ready seqs)
    (long : 0 < rule.length) (left : Nat) (enough : a.ranking.slots.size ≤ position + left) :
    Consumed rule a pos (c.search rule left position first) := by
  induction left generalizing c position first with
  | zero =>
    have last := h.later position (Nat.le_refl _)
    rw [Nat.add_zero] at enough
    rw [Array.getElem?_eq_none enough] at last
    exact h.exhausted ready (by simpa using last)
  | succ left ih =>
    unfold search
    cases slot : c.table.ranking.slots[position]? with
    | none => exact h.exhausted ready (by simpa using slot)
    | some o =>
      cases o with
      | none => exact ih (h.skip slot) (by omega)
      | some i =>
        have own := (h.names_iff (Nat.le_refl _) i).mp slot
        have starts := h.starts_iff ready long (Nat.le_refl _) own
        dsimp only
        split
        · rename_i can
          exact h.taken ready long slot can
        · rename_i cannot
          have stuck : ¬a.Starts rule i := fun can => cannot (starts.mpr can)
          rw [h.count]
          split
          · rename_i beyond
            exact h.given_up ready slot stuck beyond
          · rename_i inside
            exact ih (h.pass slot stuck inside) (by omega)

theorem Fit.orOldest {p : Option Choice × Chooser} (h : p.2.Fit seqs z) :
    (Chooser.orOldest p).2.Fit seqs z := by
  unfold Chooser.orOldest
  split
  · exact h
  · exact (h.oldest (n := 0)).1.fit

theorem Consumed.orOldest {p : Option Choice × Chooser} (h : Consumed rule a pos p) (ready : a.Ready seqs)
    (fit : p.2.Fit seqs z) : Consumed rule a pos (orOldest p) := by
  have same : Chooser.orOldest p = p := by
    refine fit.orOldest_eq fun e k hk => ?_
    have consumes := h.consumes
    rw [e] at consumes
    cases consumes with
    | exhausted _ oldest _ _ =>
      rw [← ready.strung.chainOf_eq k]
      rcases oldest with ⟨m, hm, i, s, -, chosen⟩ | ⟨-, empty⟩
      · cases chosen
      · exact empty k hk
  rw [same]
  exact h

/-- A search of a ranking from its position on uses it up in order. -/
theorem Fit.consumed (h : c.Fit seqs z) (rule : RankedRule) (ready : c.table.Ready seqs)
    (long : 0 < rule.length) (at_pos : c.table.ranking.position = some pos) :
    Consumed rule c.table pos (Chooser.orOldest (c.rankedRun rule)) := by
  have searched := (h.scanning rule ready.tidy at_pos).consumed ready long
    (c.table.ranking.slots.size - pos) (by omega)
  have fit := (h.rankedRun rule long).fit
  unfold Chooser.rankedRun at fit ⊢
  rw [at_pos] at fit ⊢
  exact searched.orOldest ready fit

end Chooser
end CacheReplay.GLCache
