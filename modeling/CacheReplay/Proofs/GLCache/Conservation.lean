import CacheReplay.Proofs.GLCache.Agreement
import CacheReplay.Proofs.GLCache.Endurance

set_option autoImplicit false

namespace CacheReplay.GLCache.Cache
open EvictionPolicy Regression

variable {μ : Type} [Regressor μ]

/-- What has come in and what was removed, in objects and in bytes. -/
structure Traffic where
  admitted : Nat
  admittedBytes : Nat
  removed : Nat
  removedBytes : Nat

def Traffic.none : Traffic := ⟨0, 0, 0, 0⟩

def traffic : Observer (Cache μ) Traffic where
  insert c req _ n := { n with
    admitted := n.admitted + 1
    admittedBytes := n.admittedBytes + (req.size + c.account.overhead) }
  remove c id p n :=
    if p.1 then { n with
      removed := n.removed + 1
      removedBytes := n.removedBytes + ((c.record? id).map fun r => r.size + c.account.overhead).getD 0 }
    else n

structure Conserved (c : Cache μ) (n : Traffic) : Prop where
  objects : n.admitted = c.account.objects + c.tally.evictedObjects + n.removed
  bytes : n.admittedBytes = c.account.occupied + c.tally.evictedBytes + n.removedBytes

namespace Conserved
variable {c d : Cache μ} {n : Traffic} (h : c.Conserved n)
include h

omit [Regressor μ] in
theorem of_same (account : d.account = c.account) (tally : d.tally = c.tally) : d.Conserved n := by
  constructor
  · rw [account, tally]
    exact h.objects
  · rw [account, tally]
    exact h.bytes

omit [Regressor μ] in
theorem admitted {req : Request} {p : Slot × Cache μ} (done : Admitted req c p.2) :
    p.2.Conserved (traffic.insert c req p n) := by
  have objects := h.objects
  have bytes := h.bytes
  constructor
  · rw [done.account, done.tally]
    simp only [traffic, Account.charged]
    omega
  · rw [done.account, done.tally]
    simp only [traffic, Account.charged]
    omega

omit [Regressor μ] in
theorem shed (done : Shed c d) : d.Conserved n := by
  have objects := h.objects
  have bytes := h.bytes
  have left := done.objects
  have freed := done.bytes
  constructor <;> omega

omit [Regressor μ] in
theorem removed {id : Nat} {p : Bool × Cache μ} (done : Removed id c p) :
    p.2.Conserved (traffic.remove c id p n) := by
  obtain ⟨was, d⟩ := p
  cases was with
  | false =>
    have same : d = c := done.absent rfl
    rw [same]
    exact h
  | true =>
    obtain ⟨r, hr, account, covered, some⟩ := done.account rfl
    have objects := h.objects
    have bytes := h.bytes
    dsimp only at account
    constructor
    · rw [account, done.tally]
      simp only [traffic, Account.released, if_true]
      omega
    · rw [account, done.tally]
      simp only [traffic, Account.released, if_true, hr, Option.map_some, Option.getD_some]
      omega

end Conserved

theorem agreement_traffic : Agreement (traffic (μ := μ)) Conserved where
  begun _ h := ⟨h.objects, h.bytes⟩
  looked _ h looked := h.of_same looked.account looked.tally
  admitted _ h _ done := h.admitted done
  shed _ h done := h.shed done
  removed _ h done := h.removed done
  taught _ _ sound h taught :=
    have settled := taught.settled sound
    h.of_same settled.account settled.tally

variable {config : Config} (capacity overhead : Nat) (model : μ)

/-- No run loses, duplicates or charges twice, and counting what it admits and removes changes nothing. -/
theorem run_conserves (accepted : config.validate = .ok ()) (ops : List Operation) :
    Settles (.ofModel μ) (run (traffic.watch (ofConfig capacity overhead config model) .none) ops) (fun s =>
      s.notes.admitted = s.cache.account.objects + s.cache.tally.evictedObjects + s.notes.removed ∧
      s.notes.admittedBytes =
        s.cache.account.occupied + s.cache.tally.evictedBytes + s.notes.removedBytes) ∧
    Watched.cache <$> run (traffic.watch (ofConfig capacity overhead config model) .none) ops =
      run (ofConfig capacity overhead config model) ops := by
  have start := sound_ofConfig capacity overhead model accepted
  refine ⟨?_, Watched.forget_run _ ops⟩
  have kept := agreement_traffic.dependable.settles_run
    (traffic.watch (ofConfig capacity overhead config model) .none) ops ⟨start, rfl, rfl⟩
  exact kept.mono fun s h => ⟨h.2.objects, h.2.bytes⟩

theorem run_conserves_merged :
    Config.validate { Config.defaults with segmentSize := 4, retain := 4 } = .ok () ∧
    Yields (run (traffic.watch (ofConfig 18 1
        { Config.defaults with segmentSize := 4, retain := 4 } (Boosted.unfitted .defaults)) .none)
        ((List.range 10).map (fun i => .get (.ofId i 1 i)) ++ [.get (.ofId 9 1 10), .evict (.ofId 0 1 10)])) (fun s =>
      s.notes.admitted = s.cache.account.objects + s.cache.tally.evictedObjects + s.notes.removed ∧
      s.notes.admittedBytes =
        s.cache.account.occupied + s.cache.tally.evictedBytes + s.notes.removedBytes) :=
  ⟨rfl, returns_watched rfl (by decide) (run_conserves 18 1 _ rfl _).1⟩

end CacheReplay.GLCache.Cache
