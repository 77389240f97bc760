import CacheReplay.Proofs.Run

set_option autoImplicit false

namespace CacheReplay
open EvictionPolicy

variable {σ τ : Type} [EvictionPolicy σ] [EvictionPolicy τ]

/-- Wrapped states answer like the states in them, and stay wrapped. -/
structure Wraps (wrap : σ → τ) : Prop where
  account : ∀ s, account (wrap s) = account s
  withAccount : ∀ s a, withAccount (wrap s) a = wrap (withAccount s a)
  check : ∀ s req update, check (wrap s) req update = (fun p => (p.1, wrap p.2)) <$> check s req update
  insert : ∀ s req, insert (wrap s) req = (fun p => (p.1, wrap p.2)) <$> insert s req
  evict : ∀ s req, evict (wrap s) req = (fun p => (p.1, wrap p.2)) <$> evict s req
  remove : ∀ s id, remove (wrap s) id = (fun p => (p.1, wrap p.2)) <$> remove s id
  settle : ∀ s hit, settle (wrap s) hit = wrap <$> settle s hit
  evictable : ∀ s, evictable (wrap s) = evictable s

namespace Wraps
variable {wrap : σ → τ} (w : Wraps wrap)
include w

theorem makeRoom (req : Request) (tries : Nat) (s : σ) :
    makeRoom req tries (wrap s) = (fun p => (p.1, wrap p.2)) <$> makeRoom req tries s := by
  induction tries generalizing s with
  | zero =>
    unfold EvictionPolicy.makeRoom
    rw [w.account, map_bind]
    refine bind_congr fun needs => ?_
    split <;> rfl
  | succ tries ih =>
    unfold EvictionPolicy.makeRoom
    rw [w.account, map_bind]
    refine bind_congr fun needs => ?_
    split
    · dsimp only
      rw [w.evict, bind_map_left, map_bind]
      refine bind_congr fun p => ?_
      dsimp only
      split
      · exact ih p.2
      · rfl
    · rfl

theorem takeIn (s : σ) (req : Request) : takeIn (wrap s) req = wrap <$> takeIn s req := by
  unfold EvictionPolicy.takeIn
  rw [w.account, w.evictable, map_bind]
  refine bind_congr fun fits => ?_
  split
  · dsimp only
    rw [w.makeRoom, bind_map_left, map_bind]
    refine bind_congr fun p => ?_
    dsimp only
    split
    · rw [w.insert, bind_map_left, map_bind]
      rfl
    · rfl
  · rfl

theorem respond (s : σ) (req : Request) :
    respond (wrap s) req = (fun p => (p.1, wrap p.2)) <$> respond s req := by
  unfold EvictionPolicy.respond
  rw [w.check, bind_map_left, map_bind]
  refine bind_congr fun p => ?_
  dsimp only
  split
  · rfl
  · rw [w.takeIn, bind_map_left, map_bind]
    rfl
  · rw [w.takeIn, bind_map_left, map_bind]
    rfl

theorem answer (s : σ) (req : Request) :
    answer (wrap s) req = (fun p => (p.1, wrap p.2)) <$> answer s req := by
  unfold EvictionPolicy.answer
  rw [w.account, map_bind]
  refine bind_congr fun account => ?_
  rw [w.withAccount, w.respond]

theorem serve (s : σ) (req : Request) :
    serve (wrap s) req = (fun p => (p.1, wrap p.2)) <$> serve s req := by
  rw [serve_eq, serve_eq, w.answer, bind_map_left, map_bind]
  refine bind_congr fun p => ?_
  dsimp only
  rw [w.settle, bind_map_left, map_bind]
  rfl

theorem perform (s : σ) (op : Operation) : perform (wrap s) op = wrap <$> perform s op := by
  cases op with
  | get req => simp only [EvictionPolicy.perform, w.serve, Functor.map_map]
  | check req update => simp only [EvictionPolicy.perform, w.check, Functor.map_map]
  | remove id => simp only [EvictionPolicy.perform, w.remove, Functor.map_map]
  | evict req => simp only [EvictionPolicy.perform, w.evict, Functor.map_map]

theorem run (s : σ) (ops : List Operation) : run (wrap s) ops = wrap <$> run s ops := by
  induction ops generalizing s with
  | nil => rfl
  | cons op ops ih =>
    unfold EvictionPolicy.run at ih ⊢
    rw [List.foldlM_cons, List.foldlM_cons, w.perform, bind_map_left, map_bind]
    exact bind_congr fun s => ih s

end Wraps
variable {t : Tolerance} {caches absent : σ → Nat → Prop} {holds lacks : τ → Nat → Prop}
  {sound : σ → Prop} {wrap : σ → τ}

/-- A wrapped policy is as dependable as the policy itself. -/
theorem EvictionPolicy.Dependable.wrapped (d : Dependable t caches absent sound) (w : Wraps wrap)
    (same : ∀ (x : τ) (a : Account), account (withAccount x a) = a)
    (cached : ∀ s id, holds (wrap s) id ↔ caches s id)
    (missed : ∀ s id, lacks (wrap s) id ↔ absent s id) :
    Dependable t holds lacks fun x => ∃ s, x = wrap s ∧ sound s where
  account_withAccount := same
  begun x req h := by
    obtain ⟨s, rfl, hs⟩ := h
    rw [w.account, w.withAccount]
    exact ⟨_, rfl, d.begun s req hs⟩
  within x h := by
    obtain ⟨s, rfl, hs⟩ := h
    rw [w.account]
    exact d.within s hs
  evictable x h some := by
    obtain ⟨s, rfl, hs⟩ := h
    rw [w.account] at some
    rw [w.account, w.evictable]
    exact d.evictable s hs some
  check x req update h := by
    obtain ⟨s, rfl, hs⟩ := h
    rw [w.check, w.account]
    refine settles_map ((d.check s req update hs).mono fun p done => ?_)
    obtain ⟨hp, terms, answer⟩ := done
    rw [w.account, cached, missed]
    exact ⟨⟨_, rfl, hp⟩, terms, answer⟩
  evict x req h := by
    obtain ⟨s, rfl, hs⟩ := h
    rw [w.evict, w.account, w.evictable]
    refine settles_map ((d.evict s req hs).mono fun p done => ?_)
    obtain ⟨hp, terms, keeps, succeeds, fewer⟩ := done
    rw [w.account, w.evictable]
    refine ⟨⟨_, rfl, hp⟩, terms, fun id => ?_, succeeds, fewer⟩
    rw [missed, missed]
    exact keeps id
  insert x req h free room := by
    obtain ⟨s, rfl, hs⟩ := h
    rw [w.account] at room
    rw [missed] at free
    rw [w.insert, w.account]
    refine settles_map ((d.insert s req hs free room).mono fun p done => ?_)
    obtain ⟨hp, terms, inside⟩ := done
    rw [w.account, cached]
    exact ⟨⟨_, rfl, hp⟩, terms, inside⟩
  remove x id h := by
    obtain ⟨s, rfl, hs⟩ := h
    rw [w.remove]
    exact settles_map ((d.remove s id hs).mono fun p hp => ⟨_, rfl, hp⟩)
  settle x hit h := by
    obtain ⟨s, rfl, hs⟩ := h
    rw [w.settle, w.account]
    refine settles_map ((d.settle s hit hs).mono fun p done => ?_)
    obtain ⟨hp, terms, keeps⟩ := done
    rw [w.account]
    refine ⟨⟨_, rfl, hp⟩, terms, fun id => ?_⟩
    rw [cached, cached]
    exact keeps id

theorem EvictionPolicy.Dependable.unwrapped {good : τ → Prop} (d : Dependable t holds lacks good)
    (w : Wraps wrap) : Dependable t (fun s => holds (wrap s)) (fun s => lacks (wrap s))
      fun s => good (wrap s) where
  account_withAccount s a := by
    rw [← w.account, ← w.withAccount]
    exact d.account_withAccount (wrap s) a
  begun s req h := by
    rw [← w.withAccount, ← w.account]
    exact d.begun (wrap s) req h
  within s h := by
    rw [← w.account]
    exact d.within (wrap s) h
  evictable s h some := by
    rw [← w.account] at some ⊢
    rw [← w.evictable]
    exact d.evictable (wrap s) h some
  check s req update h := by
    have done := d.check (wrap s) req update h
    rw [w.check, w.account] at done
    refine (settles_of_map done).mono fun p done => ?_
    rw [w.account] at done
    exact done
  evict s req h := by
    have done := d.evict (wrap s) req h
    rw [w.evict, w.account, w.evictable] at done
    refine (settles_of_map done).mono fun p done => ?_
    rw [w.account, w.evictable] at done
    exact done
  insert s req h free room := by
    rw [← w.account] at room
    have done := d.insert (wrap s) req h free room
    rw [w.insert, w.account] at done
    refine (settles_of_map done).mono fun p done => ?_
    rw [w.account] at done
    exact done
  remove s id h := by
    have done := d.remove (wrap s) id h
    rw [w.remove] at done
    exact (settles_of_map done).mono fun p done => done
  settle s hit h := by
    have done := d.settle (wrap s) hit h
    rw [w.settle, w.account] at done
    refine (settles_of_map done).mono fun s' done => ?_
    rw [w.account] at done
    exact done

end CacheReplay
