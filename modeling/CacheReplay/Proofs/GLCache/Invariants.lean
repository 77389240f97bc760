import CacheReplay.Proofs.GLCache.Audit
import CacheReplay.Proofs.GLCache.Training
import CacheReplay.Regression.Boosting

set_option autoImplicit false

namespace CacheReplay.GLCache
open Regression

section coherence

/-- What a live segment says of the records that it lists. -/
structure Contents.Accounts (c : Contents) (k : Slot) (g : Segment) : Prop where
  fits : g.objects.size ≤ c.table.segmentSize
  nodup : g.objects.toList.Nodup
  records : ∃ rs, List.Forall₂
      (fun i r => c.store.get? i = some r ∧ r.ghost = false ∧ r.tag.segment = k) g.objects.toList rs ∧
    g.bytes = (rs.map fun r => r.size + c.account.overhead).sum ∧
    g.active = rs.countP (·.tag.active)

structure Contents.Coherent (c : Contents) : Prop where
  chains : ∀ k ≤ quarantine, (c.table.bucket k).chain.Represents c.table.segments (c.table.chainOf k)
  homes : ∀ k ≤ quarantine, ∀ i, i ∈ c.table.chainOf k ↔ ∃ g, c.table.get? i = some g ∧ g.bucket = k
  buckets : ∀ i g, c.table.get? i = some g → g.bucket ≤ quarantine
  inUse : c.table.inUse = c.table.live.length
  training : c.table.training = (c.table.chainOf quarantine).length
  allocated : c.table.segments.Sound ∧ c.table.segments.size = c.table.inUse + c.table.training
  segments : ∀ k g, c.table.get? k = some g → g.bucket ≠ quarantine → c.Accounts k g
  /-- A live record is in one live segment. -/
  owner : ∀ i r, c.store.get? i = some r → r.ghost = false →
    ∃! k, ∃ g, c.table.get? k = some g ∧ g.bucket ≠ quarantine ∧ i ∈ g.objects.toList
  ranks : ∀ (p : Nat) (i : Slot), c.table.ranking.slots[p]? = some (some i) →
    ∃ g, c.table.get? i = some g ∧ g.rank = some p
  indexes : c.store.Consistent
  objects : c.account.objects = c.store.size ∧
    c.account.objects = c.store.records.total (Record.unit false)
  occupied : c.account.occupied = c.store.records.total (Record.liveBytes c.account.overhead)
  within : c.account.occupied ≤ c.account.capacity

namespace Contents
variable {c : Contents}

theorem Sound.accounts (h : c.Sound) {k : Slot} {g : Segment} (hg : c.table.get? k = some g)
    (home : g.bucket ≠ quarantine) : c.Accounts k g := by
  have nodup := h.ledger.nodup k
  have listed := fun i => h.ledger.live k i
  rw [Table.liveObjects_of_live hg home] at nodup listed
  obtain ⟨rs, -, records⟩ := h.auditObjects_eq hg home
  have filled := h.filled k g hg home
  have pointing : List.Forall₂ (fun i r => i ∈ g.objects.toList ∧ c.store.live? i = some r)
      g.objects.toList rs := (List.forall₂_and_left _ _).mpr ⟨fun _ hi => hi, records⟩
  refine ⟨filled.fits, nodup, rs, pointing.imp fun i r both => ?_, ?_, ?_⟩
  · obtain ⟨hi, hr⟩ := both
    obtain ⟨u, hu, at_k⟩ := (listed i).mp hi
    rw [hr] at hu
    cases hu
    obtain ⟨get, live⟩ := (c.store.live?_eq_some_iff i r).mp hr
    exact ⟨get, live, at_k⟩
  · rw [filled.bytes, heldBytes_of_forall₂ c.account.overhead records]
  · rw [filled.active, heldActive_of_forall₂ records]

theorem Sound.owner (h : c.Sound) {i : Slot} {r : Record ObjectTag} (hr : c.store.get? i = some r)
    (live : r.ghost = false) :
    ∃! k, ∃ g, c.table.get? k = some g ∧ g.bucket ≠ quarantine ∧ i ∈ g.objects.toList := by
  have alive := (c.store.live?_eq_some_iff i r).mpr ⟨hr, live⟩
  refine ⟨r.tag.segment, h.segment_of_live alive, fun k found => ?_⟩
  obtain ⟨g, hg, home, hi⟩ := found
  rw [← Table.liveObjects_of_live hg home] at hi
  obtain ⟨u, hu, at_k⟩ := (h.ledger.live k i).mp hi
  rw [alive] at hu
  cases hu
  exact at_k.symm

theorem Sound.coherent (h : c.Sound) : c.Coherent where
  chains k _ := h.strung.family.represents k
  homes k _ i := h.strung.mem_iff k i
  buckets _ _ hg := h.strung.bucket_lt hg
  inUse := h.strung.inUse_eq
  training := h.strung.counted.training
  allocated := ⟨h.strung.sound, by rw [h.strung.inUse_eq, h.strung.length_live]⟩
  segments _ _ hg home := h.accounts hg home
  owner _ _ hr live := h.owner hr live
  ranks p i hi := h.ranked.slots p i hi
  indexes := h.ledger.consistent
  objects := ⟨h.ledger.balanced.objects.trans h.ledger.consistent.counted.symm,
    h.ledger.balanced.objects⟩
  occupied := h.ledger.balanced.occupied
  within := h.ledger.within

end Contents
end coherence

section selection

structure Table.Links (a : Table) (k : Nat) (i : Slot) : Prop where
  linked : i ∈ a.chainOf k
  home : ∃ g, a.get? i = some g ∧ g.bucket = k

/-- A choice that a table allows; a merge takes `n` segments and not the one being written. -/
def Choice.LegalIn (a : Table) (n : Nat) : Choice → Prop
  | .merge run => run.length = n ∧ run.Nodup ∧
      ∃ k < liveBuckets, ∀ i ∈ run, a.Links k i ∧ (a.bucket k).chain.back ≠ some i
  | .single i => ∃ k < liveBuckets, a.Links k i

theorem Choice.Legal.legalIn {a : Table} {seqs : Nat → List Slot} {n : Nat} {choice : Choice}
    (h : choice.Legal seqs n) (strung : a.Strung seqs none) : choice.LegalIn a n := by
  have links : ∀ k i, i ∈ seqs k → a.Links k i := by
    intro k i hi
    refine ⟨?_, (strung.mem_iff k i).mp hi⟩
    rw [strung.chainOf_eq]
    exact hi
  cases choice with
  | single i =>
    obtain ⟨k, hk, hi⟩ := h
    exact ⟨k, hk, links k i hi⟩
  | merge run =>
    obtain ⟨length, nodup, k, hk, members⟩ := h
    refine ⟨length, nodup, k, hk, fun i hi => ⟨links k i (members i hi).1, ?_⟩⟩
    have back : (a.bucket k).chain.back = (seqs k).getLast? := (strung.family.represents k).back_eq
    rw [back]
    exact (members i hi).2

variable {μ : Type} [Regressor μ]

/-- Every choice is legal when it is made, whatever the generator holds, and can be carried out. -/
structure Cache.Selects (c : Cache μ) : Prop where
  choose : ∀ random, Settles .arithmetic (Cache.choose { c with random }) fun p =>
    p.2.contents.table.chainOf = c.contents.table.chainOf ∧
      ∀ choice, p.1 = some choice → choice.LegalIn p.2.contents.table c.config.mergeCount
  evict : ∀ random, Settles .arithmetic (Cache.evict { c with random }) fun _ => True

theorem Cache.Sound.selects {c : Cache μ} (h : c.Sound) : c.Selects := by
  have sound : ∀ random, Cache.Sound { c with random } := fun _ =>
    ⟨h.contents, h.turn, h.accepted, h.segmentSize, h.aligned⟩
  constructor
  · intro random
    have several := (Config.bounds_of_validate h.accepted).2.1
    refine (Cache.settles_choose { c with random } h.contents.strung h.contents.ranked h.turn
      (Nat.lt_of_succ_lt several)).mono fun p chose => ?_
    obtain ⟨chooser, e, fit, legal, -⟩ := chose
    rw [e]
    have strung := fit.settled.strung
    exact ⟨funext strung.chainOf_eq, fun choice picked => (legal choice picked).legalIn strung⟩
  · intro random
    exact (sound random).settles_evict.mono fun _ _ => trivial

end selection

section ghosts

/-- Every ghost is owned by a quarantined segment, which lists it. -/
def Contents.GhostsOwned (c : Contents) : Prop :=
  ∀ i r, c.store.get? i = some r → r.ghost = true → r.tag.segment ∈ c.table.chainOf quarantine ∧
    ∃ g, c.table.get? r.tag.segment = some g ∧ g.bucket = quarantine ∧ i ∈ g.objects.toList

theorem Contents.Sound.ghostsOwned {c : Contents} (h : c.Sound) : c.GhostsOwned := by
  intro i r hr ghost
  obtain ⟨g, hg, home, hi⟩ := Table.exists_of_mem_ghostSlots (h.ledger.ghost i r hr ghost)
  exact ⟨(h.strung.mem_iff quarantine _).mpr ⟨g, hg, home⟩, g, hg, home, hi⟩

/-- No ghost and no quarantined segment is left, and the live records are those of before. -/
structure Contents.Purged (c d : Contents) : Prop where
  ghostCount : d.store.ghostCount = .ok 0
  ghosts : ∀ i r, d.store.get? i = some r → r.ghost = false
  training : d.table.training = 0
  quarantined : d.table.chainOf quarantine = [] ∧ ∀ k g, d.table.get? k = some g → g.bucket ≠ quarantine
  live : ∀ i r, r.ghost = false → (d.store.get? i = some r ↔ c.store.get? i = some r)

theorem Contents.Cleared.purged {c d : Contents} (h : Cleared c d) : c.Purged d := by
  refine ⟨h.ghostCount, h.ghosts, h.training, ⟨?_, h.segments⟩, fun i r live => ?_⟩
  · rw [List.eq_nil_iff_forall_not_mem]
    intro k hk
    obtain ⟨g, hg, home⟩ := (h.sound.strung.mem_iff quarantine k).mp hk
    exact h.segments k g hg home
  · have same := h.live i
    have before := c.store.live?_eq_some_iff i r
    have after := d.store.live?_eq_some_iff i r
    rw [same] at after
    simpa [live] using after.symm.trans before

variable {μ : Type} [Regressor μ]

/--
A training run at any time leaves no ghost, whether or not the model takes the data. It comes to an end
unless the rows of the learner do not match their labels.
-/
def Contents.TrainsClean (μ : Type) [Regressor μ] (c : Contents) : Prop :=
  ∀ (l : Learner μ) (time : Int), Settles .any (l.train c time) (fun q => c.Purged q.2) ∧
    (l.samples.Aligned featureCount → Settles (.ofModel μ) (l.train c time) fun q => c.Purged q.2)

theorem Contents.Sound.trainsClean {c : Contents} (h : c.Sound) : c.TrainsClean μ := by
  intro l time
  have purged : ∀ {q : Learner μ × Contents}, (∃ (result : Except FitError Unit) (model : μ),
      Regressor.fit l.model l.trainingData = .ok (result, model) ∧
        q = (l.trained result model time, c.unquarantined)) → c.Purged q.2 := by
    rintro q ⟨result, model, -, rfl⟩
    exact h.unquarantined.purged
  constructor
  · exact (Cache.settles_train (fun _ _ _ _ => trivial) (settles_any _) h time).mono fun _ => purged
  · intro aligned
    exact (Cache.settles_train Tolerance.allows_of_fit (l.settles_prepare aligned) h time).mono fun _ => purged

end ghosts

namespace Cache
open EvictionPolicy
variable {μ : Type} [Regressor μ]

theorem dependable_ofModel : Dependable (.ofModel μ)
    (fun (c : Cache μ) id => c.contents.store.caches id = true)
    (fun c id => ¬c.contents.store.caches id = true) Sound :=
  dependable Tolerance.allows_of_fit

end Cache
end CacheReplay.GLCache
