import CacheReplay.Proofs.GLCache.Invariants
import CacheReplay.Proofs.Observation

set_option autoImplicit false

namespace CacheReplay.GLCache.Cache
open EvictionPolicy Regression

variable {μ η : Type} [Regressor μ] {o : Observer (Cache μ) η} {agrees : Cache μ → η → Prop}

/-- Whatever is done to a sound cache, the notes that are taken of it agree with what it leaves. -/
structure Agreement (o : Observer (Cache μ) η) (agrees : Cache μ → η → Prop) : Prop where
  begun : ∀ {c : Cache μ} {n : η} (req : Request), agrees c n →
    agrees { c with contents := { c.contents with account := c.account.begun req } } n
  looked : ∀ {c : Cache μ} {n : η} {req : Request} {update : Bool} {p : Outcome × Cache μ},
    c.Sound → agrees c n → Looked req update c p → agrees p.2 (o.check c req update p n)
  admitted : ∀ {c : Cache μ} {n : η} {req : Request} {p : Slot × Cache μ},
    c.Sound → agrees c n → ¬c.contents.store.caches req.id = true → Admitted req c p.2 →
    agrees p.2 (o.insert c req p n)
  shed : ∀ {c : Cache μ} {n : η} {req : Request} {p : Bool × Cache μ},
    c.Sound → agrees c n → Shed c p.2 → agrees p.2 (o.evict c req p n)
  removed : ∀ {c : Cache μ} {n : η} {id : Nat} {p : Bool × Cache μ},
    c.Sound → agrees c n → Removed id c p → agrees p.2 (o.remove c id p n)
  taught : ∀ {c d : Cache μ} {n : η} (hit : Bool) (load : Load),
    c.Sound → agrees c n → Taught c d → agrees { d with load } (o.settle c hit { d with load } n)

namespace Agreement
variable (h : Agreement o agrees)
include h

theorem keeps : Keeps (.ofModel μ) (fun s : Watched o => fun id => ¬s.cache.contents.store.caches id = true)
    (fun s => s.cache.Sound) fun s => agrees s.cache s.notes where
  begun _ req _ agreed := h.begun req agreed
  check _ req update sound agreed :=
    settles_map ((sound.settles_check req update).mono fun _ looked => h.looked sound agreed looked)
  evict _ _ sound agreed :=
    settles_map (sound.settles_evict.mono fun _ done => h.shed sound agreed done.1)
  insert _ _ sound agreed missed room :=
    settles_map ((sound.settles_insert missed room).mono fun _ done => h.admitted sound agreed missed done)
  remove _ id sound agreed :=
    settles_map ((sound.settles_remove id).mono fun _ done => h.removed sound agreed done)
  settle s hit sound agreed := by
    refine settles_map ((sound.settles_teach Tolerance.allows_of_fit hit).mono fun d done => ?_)
    obtain ⟨e, load, taught, rfl⟩ := done
    exact h.taught hit load sound agreed taught

theorem dependable : Dependable (.ofModel μ)
    (fun (s : Watched o) id => s.cache.contents.store.caches id = true)
    (fun s id => ¬s.cache.contents.store.caches id = true)
    fun s => s.cache.Sound ∧ agrees s.cache s.notes :=
  (dependable_ofModel.unwrapped Watched.wraps_cache).keeping h.keeps

end Agreement
end CacheReplay.GLCache.Cache
