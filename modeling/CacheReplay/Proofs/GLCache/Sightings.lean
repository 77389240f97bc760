import CacheReplay.Proofs.GLCache.Agreement
import CacheReplay.Proofs.GLCache.Endurance
import Mathlib.Data.Set.Insert

set_option autoImplicit false

namespace CacheReplay.GLCache.Cache
open EvictionPolicy Regression

variable {μ : Type}

/-- The objects that were hit since they were admitted. -/
structure Sightings where
  /-- Hit since the latest snapshot. -/
  recent : Set Nat
  earlier : Set Nat

def Sightings.none : Sightings := ⟨∅, ∅⟩

def sightings : Observer (Cache μ) Sightings where
  check _ req update p n :=
    if update = true ∧ p.1 = .hit then { n with recent := n.recent ∪ {req.id} } else n
  insert _ req _ n := ⟨n.recent \ {req.id}, n.earlier \ {req.id}⟩
  settle c _ _ n := if c.snapshots then ⟨∅, n.recent ∪ n.earlier⟩ else n

/-- A hit since the snapshot that sampled its segment marks an object, and a mark comes from some hit. -/
structure Sighted (c : Cache μ) (n : Sightings) : Prop where
  recent : ∀ i r, c.contents.store.live? i = some r → r.id ∈ n.recent →
    (c.contents.table.sample? r.tag.segment).isSome = true → r.tag.seen = true
  seen : ∀ i r, c.contents.store.live? i = some r → r.tag.seen = true →
    r.id ∈ n.recent ∨ r.id ∈ n.earlier

theorem sighted_ofConfig (capacity overhead : Nat) (config : Config) (model : μ) :
    (ofConfig capacity overhead config model).Sighted .none where
  recent _ _ _ hit := hit.elim
  seen i r hr := by
    have none : (ofConfig capacity overhead config model).contents.store.get? i = none := Arena.get?_empty i
    rw [Store.live?_of_none none] at hr
    cases hr

namespace Sighted
variable {c d : Cache μ} {n : Sightings} (h : c.Sighted n)
include h

theorem looked {req : Request} {update : Bool} {p : Outcome × Cache μ}
    (done : Looked req update c p) (consistent : c.contents.store.Consistent) :
    p.2.Sighted (sightings.check c req update p n) := by
  have sample? := done.relabelled.sample?
  have known : ∀ id, id ∈ (sightings.check c req update p n).recent ↔
      (update = true ∧ p.1 = .hit ∧ id = req.id) ∨ id ∈ n.recent := by
    intro id
    simp only [sightings]
    split
    · rename_i hit
      simp [hit.1, hit.2]
    · rename_i missed
      rw [← and_assoc]
      simp [missed]
  have earlier : (sightings.check c req update p n).earlier = n.earlier := by
    simp only [sightings]
    split <;> rfl
  constructor
  · intro j u hu recent sampled
    obtain ⟨r, hr, id, segment, seen⟩ := done.live j u hu
    rw [sample?, ← segment] at sampled
    rw [seen]
    rcases (known u.id).mp recent with ⟨looking, -, same⟩ | before
    · simp [looking, id.trans same, sampled]
    · rw [h.recent j r hr (id ▸ before) sampled, Bool.true_or]
  · intro j u hu marked
    obtain ⟨r, hr, id, segment, seen⟩ := done.live j u hu
    rw [known, earlier, ← id]
    rw [seen, Bool.or_eq_true] at marked
    rcases marked with before | now
    · exact (h.seen j r hr before).imp_left .inr
    · simp only [Bool.and_eq_true, beq_iff_eq] at now
      have hit := done.hit.mpr ((consistent.caches_iff_live req.id).mpr ⟨j, r, hr, now.1.2⟩)
      exact .inl (.inl ⟨now.1.1, hit, now.1.2⟩)

theorem admitted {req : Request} {p : Slot × Cache μ} (done : Admitted req c p.2)
    (missed : ¬c.contents.store.caches req.id = true) (consistent : c.contents.store.Consistent) :
    p.2.Sighted (sightings.insert c req p n) := by
  have sample? := done.relabelled.sample?
  have other : ∀ j u, c.contents.store.live? j = some u → u.id ≠ req.id := fun j u hu same =>
    missed ((consistent.caches_iff_live req.id).mpr ⟨j, u, hu, same⟩)
  constructor
  · intro j u hu recent sampled
    rw [sample?] at sampled
    rcases done.live j u hu with old | ⟨same, -⟩
    · exact h.recent j u old recent.1 sampled
    · exact absurd same recent.2
  · intro j u hu marked
    rcases done.live j u hu with old | ⟨-, unmarked⟩
    · exact (h.seen j u old marked).imp (⟨·, other j u old⟩) (⟨·, other j u old⟩)
    · rw [unmarked] at marked
      cases marked

theorem removed {id : Nat} {p : Bool × Cache μ} (done : Removed id c p) : p.2.Sighted n where
  recent i r hr recent sampled := by
    rw [done.relabelled.sample?] at sampled
    exact h.recent i r (done.live i r hr) recent sampled
  seen i r hr := h.seen i r (done.live i r hr)

theorem shed (done : Shed c d) : d.Sighted n := by
  obtain ⟨ps, m, evicts⟩ := done.evicts
  constructor
  · intro i r hr recent sampled
    rw [evicts.sample?] at sampled
    rcases evicts.moved i r hr with old | ⟨fresh, -⟩
    · exact h.recent i r old recent sampled
    · rw [Table.sample?_of_none fresh] at sampled
      cases sampled
  · intro i r hr marked
    rcases evicts.moved i r hr with old | ⟨-, unmarked⟩
    · exact h.seen i r old marked
    · rw [unmarked] at marked
      cases marked

theorem taught [Regressor μ] (sound : c.Sound) (taught : Taught c d) (hit : Bool) :
    d.Sighted (sightings.settle c hit d n) := by
  have settled := taught.settled sound
  rcases taught with ⟨idle, rfl⟩ | ⟨due, -⟩
  · simpa [sightings, idle] using h
  constructor
  · intro i r _ recent
    simp [sightings, due] at recent
  · intro i r hr marked
    rw [settled.live] at hr
    simpa [sightings, due] using h.seen i r hr marked

end Sighted

/-- Emptying a live segment that is sampled leaves ghosts of what is not marked there. -/
theorem Shed.haunts_iff {c d : Cache μ} (sound : c.Sound) (shed : Shed c d) {k : Slot} {g : Segment}
    (hg : c.contents.table.get? k = some g) (home : g.bucket ≠ quarantine) (sampled : g.sampled = true)
    (gone : k ∉ d.contents.table.live) {i : Slot} {r : Record ObjectTag}
    (hr : c.contents.store.live? i = some r) (hk : r.tag.segment = k) :
    d.contents.store.Haunts r.id k ↔ r.tag.seen = false := by
  obtain ⟨ps, m, evicts⟩ := shed.evicts
  have emptied : k ∈ ps := by
    by_contra kept
    obtain ⟨u, hu, same⟩ := evicts.stay k g hg kept
    refine gone ((evicts.sound.strung.mem_live_iff k).mpr ⟨u, hu, ?_⟩)
    rw [same]
    exact home
  subst hk
  cases seen : r.tag.seen with
  | false =>
    have leaving : c.contents.leaving ps i := ⟨r, g, hr, emptied, hg, by rw [sampled, seen]; rfl⟩
    exact iff_of_true ((evicts.leaves.left i r leaving hr _).mpr rfl) rfl
  | true =>
    refine iff_of_false (fun haunts => ?_) nofun
    rw [evicts.leaves.kept r.id fun j u leaving hu same => ?_] at haunts
    · obtain ⟨j, u, hu, -, ghost, at_k⟩ := haunts
      obtain ⟨-, v, hv, retired, -⟩ := sound.contents.ghostsOwned j u hu ghost
      rw [at_k, hg] at hv
      cases hv
      exact home retired
    · -- Two live records of one object are the same, and this one is marked.
      obtain ⟨w, _, hw, -, -, unseen⟩ := leaving
      have hi := (c.contents.store.live?_eq_some_iff i r).mp hr
      have hj := (c.contents.store.live?_eq_some_iff j u).mp hu
      have e := sound.contents.ledger.consistent.live_unique hj.1 hi.1 hj.2 hi.2 same
      rw [e, hr] at hw
      cases hw
      rw [seen, Bool.not_true, Bool.and_false] at unseen
      cases unseen

/-- What an eviction makes of the objects of the live sampled segments that it empties. -/
def LeavesUnseen (c : Cache μ) (n : Sightings) (d : Cache μ) : Prop :=
  ∀ k g, c.contents.table.get? k = some g → g.bucket ≠ quarantine → g.sampled = true →
    k ∉ d.contents.table.live → ∀ i r, c.contents.store.live? i = some r → r.tag.segment = k →
      (d.contents.store.Haunts r.id k ↔ r.tag.seen = false) ∧
      (r.id ∈ n.recent → ¬d.contents.store.Haunts r.id k) ∧
      (r.id ∉ n.earlier → (d.contents.store.Haunts r.id k ↔ r.id ∉ n.recent))

theorem Sighted.leavesUnseen {c d : Cache μ} {n : Sightings} (h : c.Sighted n) (sound : c.Sound)
    (shed : Shed c d) : c.LeavesUnseen n d := by
  intro k g hg home sampled gone i r hr hk
  have sampled? : (c.contents.table.sample? r.tag.segment).isSome = true := by
    rw [hk, Table.sample?_of_get? hg, Segment.sample?, if_pos sampled]
    rfl
  rw [shed.haunts_iff sound hg home sampled gone hr hk]
  refine ⟨.rfl, fun recent => ?_, fun fresh => ⟨fun unmarked recent => ?_, fun unhit => ?_⟩⟩
  · rw [h.recent i r hr recent sampled?]
    exact Bool.noConfusion
  · rw [h.recent i r hr recent sampled?] at unmarked
    cases unmarked
  · rw [← Bool.not_eq_true]
    intro marked
    exact (h.seen i r hr marked).elim unhit fresh

section run
variable [Regressor μ]

theorem agreement_sightings : Agreement (sightings (μ := μ)) Sighted where
  begun _ h := ⟨h.recent, h.seen⟩
  looked sound h looked := h.looked looked sound.contents.ledger.consistent
  admitted sound h missed done := h.admitted done missed sound.contents.ledger.consistent
  shed _ h done := h.shed done
  removed _ h done := h.removed done
  taught hit _ sound h taught :=
    have sighted := h.taught sound taught hit
    ⟨sighted.recent, sighted.seen⟩

variable {config : Config} (capacity overhead : Nat) (model : μ)

/--
In whatever a run reaches, also while it makes room for an object, emptying a sampled segment leaves a ghost
of each object that was never hit and of none that was hit since the latest snapshot.
-/
theorem run_leavesUnseen (accepted : config.validate = .ok ()) (ops : List Operation) :
    Settles (.ofModel μ) (run (sightings.watch (ofConfig capacity overhead config model) .none) ops) (fun s =>
      (∀ req : Request, Settles (.ofModel μ) (EvictionPolicy.evict s.cache req) fun p =>
        s.cache.LeavesUnseen s.notes p.2) ∧
      ∀ (req : Request) (evictions : Nat), Settles (.ofModel μ) (makingRoom s req evictions) fun e =>
        Settles (.ofModel μ) (EvictionPolicy.evict e.cache req) fun p => e.cache.LeavesUnseen e.notes p.2) ∧
    Watched.cache <$> run (sightings.watch (ofConfig capacity overhead config model) .none) ops =
      run (ofConfig capacity overhead config model) ops := by
  have kept := agreement_sightings.dependable (μ := μ)
  have start := sound_ofConfig capacity overhead model accepted
  have evicts : ∀ (s : Watched (sightings (μ := μ))) (req : Request),
      s.cache.Sound ∧ s.cache.Sighted s.notes →
      Settles (.ofModel μ) (EvictionPolicy.evict s.cache req) fun p => s.cache.LeavesUnseen s.notes p.2 :=
    fun s _ h => h.1.settles_evict.mono fun p done => h.2.leavesUnseen h.1 done.1
  refine ⟨?_, Watched.forget_run _ ops⟩
  refine (kept.settles_run _ ops ⟨start, sighted_ofConfig capacity overhead config model⟩).mono fun s h => ?_
  refine ⟨fun req => evicts s req h, fun req evictions => ?_⟩
  exact (kept.settles_makingRoom s req evictions h).mono fun e he => evicts e req he

/-- A segment with an object that was hit in the period before is sampled here, and the next to go. -/
theorem run_leavesUnseen_resampled :
    Config.validate { Config.defaults with
      segmentSize := 4, mergeCount := 2, retain := 1, warmup := 0, retrainInterval := 1, maxRows := 10,
      selection := some .fifo } = .ok () ∧
    Yields (run (sightings.watch (ofConfig 12 0
        { Config.defaults with
          segmentSize := 4, mergeCount := 2, retain := 1, warmup := 0, retrainInterval := 1, maxRows := 10,
          selection := some .fifo } (Boosted.unfitted .defaults)) .none)
        ((List.range 9).map (fun i => .get (.ofId (i + 1) 1 (i / 8))) ++
          [.get (.ofId 1 1 1), .get (.ofId 9 1 3)])) (fun s =>
      (∀ req : Request, Settles (.ofModel Boosted) (EvictionPolicy.evict s.cache req) fun p =>
        s.cache.LeavesUnseen s.notes p.2) ∧
      ∀ (req : Request) (evictions : Nat), Settles (.ofModel Boosted) (makingRoom s req evictions) fun e =>
        Settles (.ofModel Boosted) (EvictionPolicy.evict e.cache req) fun p =>
          e.cache.LeavesUnseen e.notes p.2) :=
  ⟨rfl, returns_watched rfl (by decide) (run_leavesUnseen 12 0 _ rfl _).1⟩

end run
end CacheReplay.GLCache.Cache
