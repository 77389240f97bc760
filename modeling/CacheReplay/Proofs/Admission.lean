import Mathlib
import CacheReplay.Policy.Any
import CacheReplay.Proofs.Arc
import CacheReplay.Proofs.GLCache.Training
import CacheReplay.Proofs.QueuePolicies
import CacheReplay.Proofs.Wrapping

set_option autoImplicit false

namespace CacheReplay
open EvictionPolicy

namespace AnyCache
open Regression
variable {μ : Type} [Regressor μ]

def caches : AnyCache μ → Nat → Bool
  | fifo c, id => c.queue.store.caches id
  | lru c, id => c.queue.store.caches id
  | clock c, id => c.queue.store.caches id
  | sieve c, id => c.queue.store.caches id
  | arc c, id => c.store.caches id
  | glcache c, id => c.contents.store.caches id

/-- Whether an object may be admitted; adaptive replacement must not know a ghost of it either. -/
def lacks : AnyCache μ → Nat → Prop
  | arc c, id => c.absent id
  | c, id => ¬c.caches id = true

theorem account_withAccount (c : AnyCache μ) (a : Account) : account (withAccount c a) = a := by
  cases c <;> rfl

theorem wraps_of_passes {σ : Type} [EvictionPolicy σ] {wrap : σ → AnyCache μ}
    (observe : ∀ {α : Type} (f : {σ : Type} → [EvictionPolicy σ] → σ → α) (s : σ),
      (wrap s).observe f = f s)
    (map : ∀ (f : {σ : Type} → [EvictionPolicy σ] → σ → σ) (s : σ), (wrap s).map f = wrap (f s))
    (query : ∀ {α : Type} (f : {σ : Type} → [EvictionPolicy σ] → σ → Checked (α × σ)) (s : σ),
      (wrap s).query f = (fun p => (p.1, wrap p.2)) <$> f s) : Wraps wrap where
  account := observe EvictionPolicy.account
  withAccount s a := map (fun c => EvictionPolicy.withAccount c a) s
  check s req update := query (fun c => EvictionPolicy.check c req update) s
  insert s req := query (fun c => EvictionPolicy.insert c req) s
  evict s req := query (fun c => EvictionPolicy.evict c req) s
  remove s id := query (fun c => EvictionPolicy.remove c id) s
  settle s hit := by
    have passed := query (fun c => do
      let c ← EvictionPolicy.settle c hit
      pure ((), c)) s
    show ((wrap s).query _ >>= fun p : Unit × AnyCache μ => pure p.2) = _
    rw [passed]
    cases EvictionPolicy.settle s hit <;> rfl
  evictable := observe EvictionPolicy.evictable

/-- An empty cache of a policy whose parameters were accepted. -/
inductive Fresh : AnyCache μ → Prop
  | fifo (capacity overhead : Nat) : Fresh (.fifo (.empty capacity overhead))
  | lru (capacity overhead : Nat) : Fresh (.lru (.empty capacity overhead))
  | clock (capacity overhead bits : Nat) {c : Clock}
      (accepted : Clock.withBits capacity overhead bits = .ok c) : Fresh (.clock c)
  | sieve (capacity overhead : Nat) : Fresh (.sieve (.empty capacity overhead))
  | arc (capacity overhead : Nat) : Fresh (.arc (.empty capacity overhead))
  | glcache (capacity overhead : Nat) {config : GLCache.Config} (model : μ)
      (accepted : config.validate = .ok ()) : Fresh (.glcache (.ofConfig capacity overhead config model))

theorem exists_dependable {σ : Type} [EvictionPolicy σ] {t : Tolerance} {wrap : σ → AnyCache μ} {s : σ}
    {cached absent : σ → Nat → Prop} {good : σ → Prop} (wraps : Wraps wrap)
    (policy : Dependable t cached absent good) (same : ∀ s id, (wrap s).caches id = true ↔ cached s id)
    (missed : ∀ s id, (wrap s).lacks id ↔ absent s id) (hs : good s) : ∃ sound : AnyCache μ → Prop,
      Dependable t (fun c id => c.caches id = true) lacks sound ∧ sound (wrap s) :=
  ⟨_, policy.wrapped wraps account_withAccount same missed, s, rfl, hs⟩

/-- The policy of a fresh cache is dependable, and the cache is sound for it. -/
theorem Fresh.dependable {c : AnyCache μ} (fresh : c.Fresh) : ∃ sound : AnyCache μ → Prop,
    Dependable (.ofModel μ) (fun c id => c.caches id = true) lacks sound ∧ sound c := by
  cases fresh with
  | fifo capacity overhead =>
    exact exists_dependable (wraps_of_passes (fun _ _ => rfl) (fun _ _ => rfl) fun _ _ => rfl)
      Fifo.dependable (fun _ _ => .rfl) (fun _ _ => .rfl) (ObjectQueue.kept_empty _ capacity overhead)
  | lru capacity overhead =>
    exact exists_dependable (wraps_of_passes (fun _ _ => rfl) (fun _ _ => rfl) fun _ _ => rfl)
      Lru.dependable (fun _ _ => .rfl) (fun _ _ => .rfl) (ObjectQueue.kept_empty _ capacity overhead)
  | clock _ _ _ accepted =>
    exact exists_dependable (wraps_of_passes (fun _ _ => rfl) (fun _ _ => rfl) fun _ _ => rfl)
      Clock.dependable (fun _ _ => .rfl) (fun _ _ => .rfl) (Clock.sound_of_withBits accepted)
  | sieve capacity overhead =>
    exact exists_dependable (wraps_of_passes (fun _ _ => rfl) (fun _ _ => rfl) fun _ _ => rfl)
      Sieve.dependable (fun _ _ => .rfl) (fun _ _ => .rfl) (Sieve.sound_empty capacity overhead)
  | arc capacity overhead =>
    exact exists_dependable (wraps_of_passes (fun _ _ => rfl) (fun _ _ => rfl) fun _ _ => rfl)
      Arc.dependable (fun _ _ => .rfl) (fun _ _ => .rfl) (Arc.sound_empty capacity overhead)
  | glcache capacity overhead model accepted =>
    exact exists_dependable (wraps_of_passes (fun _ _ => rfl) (fun _ _ => rfl) fun _ _ => rfl)
      (GLCache.Cache.dependable Tolerance.allows_of_fit) (fun _ _ => .rfl) (fun _ _ => .rfl)
      (GLCache.Cache.sound_ofConfig capacity overhead model accepted)

end AnyCache
end CacheReplay
