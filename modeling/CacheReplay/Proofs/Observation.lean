import CacheReplay.Proofs.Wrapping

set_option autoImplicit false

namespace CacheReplay
open EvictionPolicy

section
variable {σ : Type} [EvictionPolicy σ] {t : Tolerance} {caches absent : σ → Nat → Prop}
  {sound kept : σ → Prop}

/-- What answering a request on a sound state keeps; an object is inserted if it is absent and has room. -/
structure Maintains (t : Tolerance) (absent : σ → Nat → Prop) (sound kept : σ → Prop) : Prop where
  begun : ∀ (s : σ) (req : Request), sound s → kept s → kept (withAccount s ((account s).begun req))
  check : ∀ (s : σ) (req : Request) (update : Bool), sound s → kept s →
    Settles t (check s req update) fun p => kept p.2
  evict : ∀ (s : σ) (req : Request), sound s → kept s → Settles t (evict s req) fun p => kept p.2
  insert : ∀ (s : σ) (req : Request), sound s → kept s → absent s req.id →
    (account s).occupied + (req.size + (account s).overhead) ≤ (account s).capacity →
    Settles t (insert s req) fun p => kept p.2

/-- What every operation on a sound state keeps. -/
structure Keeps (t : Tolerance) (absent : σ → Nat → Prop) (sound kept : σ → Prop) : Prop
    extends Maintains t absent sound kept where
  remove : ∀ (s : σ) (id : Nat), sound s → kept s → Settles t (remove s id) fun p => kept p.2
  settle : ∀ (s : σ) (hit : Bool), sound s → kept s → Settles t (settle s hit) kept

theorem EvictionPolicy.Admissible.keeping (d : Admissible t caches absent sound)
    (k : Maintains t absent sound kept) : Admissible t caches absent fun s => sound s ∧ kept s where
  account_withAccount := d.account_withAccount
  begun s req h := ⟨d.begun s req h.1, k.begun s req h.1 h.2⟩
  within s h := d.within s h.1
  evictable s h := d.evictable s h.1
  check s req update h :=
    ((d.check s req update h.1).and (k.check s req update h.1 h.2)).mono fun _ done =>
      ⟨⟨done.1.1, done.2⟩, done.1.2⟩
  evict s req h :=
    ((d.evict s req h.1).and (k.evict s req h.1 h.2)).mono fun _ done =>
      ⟨⟨done.1.1, done.2⟩, done.1.2⟩
  insert s req h free room :=
    ((d.insert s req h.1 free room).and (k.insert s req h.1 h.2 free room)).mono fun _ done =>
      ⟨⟨done.1.1, done.2⟩, done.1.2⟩

theorem EvictionPolicy.Dependable.keeping (d : Dependable t caches absent sound)
    (k : Keeps t absent sound kept) : Dependable t caches absent fun s => sound s ∧ kept s where
  toAdmissible := d.toAdmissible.keeping k.toMaintains
  remove s id h := (d.remove s id h.1).and (k.remove s id h.1 h.2)
  settle s hit h :=
    ((d.settle s hit h.1).and (k.settle s hit h.1 h.2)).mono fun _ done =>
      ⟨⟨done.1.1, done.2⟩, done.1.2⟩

end

/-- What is noted of each operation, given the state before it and what it answers with. -/
structure Observer (σ η : Type) where
  check : σ → Request → Bool → Outcome × σ → η → η := fun _ _ _ _ n => n
  insert : σ → Request → Slot × σ → η → η := fun _ _ _ n => n
  evict : σ → Request → Bool × σ → η → η := fun _ _ _ n => n
  remove : σ → Nat → Bool × σ → η → η := fun _ _ _ n => n
  settle : σ → Bool → σ → η → η := fun _ _ _ n => n

structure Watched {σ η : Type} (o : Observer σ η) where
  cache : σ
  notes : η

def Observer.watch {σ η : Type} (o : Observer σ η) (s : σ) (n : η) : Watched o := ⟨s, n⟩

namespace Watched
variable {σ η : Type} [EvictionPolicy σ] {o : Observer σ η}

def noted {α : Type} (n : η) (note : α × σ → η → η) (p : α × σ) : α × Watched o :=
  (p.1, ⟨p.2, note p n⟩)

instance : EvictionPolicy (Watched o) where
  name s := name s.cache
  account s := account s.cache
  withAccount s a := { s with cache := withAccount s.cache a }
  check s req update := noted s.notes (o.check s.cache req update) <$> check s.cache req update
  insert s req := noted s.notes (o.insert s.cache req) <$> insert s.cache req
  victim s req := victim s.cache req
  evict s req := noted s.notes (o.evict s.cache req) <$> evict s.cache req
  remove s id := noted s.notes (o.remove s.cache id) <$> remove s.cache id
  audit s := audit s.cache
  settle s hit := (fun c => ⟨c, o.settle s.cache hit c s.notes⟩) <$> settle s.cache hit
  evictable s := evictable s.cache

omit [EvictionPolicy σ] in
theorem forget_noted {α : Type} (n : η) (note : α × σ → η → η) (x : Checked (α × σ)) :
    (fun p : α × Watched o => (p.1, p.2.cache)) <$> noted n note <$> x = x := by
  rw [Functor.map_map]
  exact id_map x

theorem wraps_cache : Wraps (Watched.cache : Watched o → σ) where
  account _ := rfl
  withAccount _ _ := rfl
  check _ _ _ := (forget_noted ..).symm
  insert _ _ := (forget_noted ..).symm
  evict _ _ := (forget_noted ..).symm
  remove _ _ := (forget_noted ..).symm
  settle s hit := by
    refine (Eq.trans ?_ (id_map (EvictionPolicy.settle s.cache hit))).symm
    exact Functor.map_map ..
  evictable _ := rfl

/-- Nobody can tell from a run whether it was observed. -/
theorem forget_run (s : Watched o) (ops : List Operation) :
    Watched.cache <$> run s ops = run s.cache ops :=
  (wraps_cache.run s ops).symm

end Watched
end CacheReplay
