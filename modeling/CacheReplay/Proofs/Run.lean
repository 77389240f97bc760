import CacheReplay.Policy.Contract
import CacheReplay.Proofs.Account

set_option autoImplicit false

/-!
# Runs of a policy

A run asks a cache for one operation after the other. A policy is dependable for
an invariant when every operation keeps it, an eviction drops something while
bytes are occupied, and a look-up answers what is cached. Serving a request then
always ends with the object in the cache, if it can ever fit.
-/
namespace CacheReplay

inductive Operation where
  | get (req : Request)
  | check (req : Request) (update : Bool)
  | remove (id : Nat)
  | evict (req : Request)

namespace Account

/-- The account while a request is served. -/
def begun (a : Account) (req : Request) : Account :=
  { a with requests := a.requests + 1, clock := req.time }

theorem settles_begin {t : Tolerance} (a : Account) (req : Request) :
    Settles t (a.begin req) fun b => b = a.begun req := by
  refine settles_bind (settles_addWord a.requests 1) ?_
  rintro requests ⟨rfl, -⟩
  exact settles_pure rfl

theorem settles_admits {t : Tolerance} (a : Account) (size : Nat) :
    Settles t (a.admits size) fun fits => fits = true ↔ size + a.overhead ≤ a.capacity := by
  refine settles_bind (settles_footprint a size) ?_
  rintro bytes ⟨rfl, -⟩
  exact settles_pure (by simp)

theorem settles_needsRoom {t : Tolerance} (a : Account) (size : Nat) :
    Settles t (a.needsRoom size) fun needs =>
      needs = true ↔ a.capacity < a.occupied + (size + a.overhead) := by
  refine settles_bind (settles_footprint a size) ?_
  rintro bytes ⟨rfl, -⟩
  refine settles_bind (settles_addWord _ _) ?_
  rintro wanted ⟨rfl, -⟩
  exact settles_pure (by simp)

end Account

namespace EvictionPolicy
variable {σ : Type} [EvictionPolicy σ]

def answer (s : σ) (req : Request) : Checked (Bool × σ) := do
  let account ← (account s).begin req
  respond (withAccount s account) req

theorem serve_eq (s : σ) (req : Request) : serve s req = (do
    let (hit, s) ← answer s req
    let s ← settle s hit
    pure (hit, s)) := by
  rw [serve, answer, bind_assoc]

def perform (s : σ) : Operation → Checked σ
  | .get req => Prod.snd <$> serve s req
  | .check req update => Prod.snd <$> check s req update
  | .remove id => Prod.snd <$> remove s id
  | .evict req => Prod.snd <$> evict s req

def run (s : σ) (ops : List Operation) : Checked σ := ops.foldlM perform s

def makingRoom (s : σ) (req : Request) (evictions : Nat) : Checked σ := do
  let account ← (account s).begin req
  let (_, s) ← check (withAccount s account) req true
  (List.range evictions).foldlM (fun s _ => Prod.snd <$> evict s req) s

theorem settles_makeRoom_idle {t : Tolerance} {s : σ} {req : Request} (tries : Nat)
    (room : (account s).occupied + (req.size + (account s).overhead) ≤ (account s).capacity) :
    Settles t (makeRoom req tries s) fun p => p = (true, s) := by
  unfold makeRoom
  apply settles_bind ((account s).settles_needsRoom req.size)
  intro needs hneeds
  have enough : needs = false := by
    rw [← Bool.not_eq_true, hneeds]
    omega
  rw [enough]
  exact settles_pure rfl

theorem settles_makeRoom_evict {t : Tolerance} {s : σ} {req : Request} {tries : Nat}
    {post : Bool × σ → Prop} (objects : 0 < (account s).objects)
    (full : (account s).capacity < (account s).occupied + (req.size + (account s).overhead))
    (evicted : Settles t (evict s req) fun p => p.1 = true ∧ Settles t (makeRoom req tries p.2) post) :
    Settles t (makeRoom req (tries + 1) s) post := by
  unfold makeRoom
  apply settles_bind ((account s).settles_needsRoom req.size)
  intro needs hneeds
  have more : (needs && decide (0 < (account s).objects)) = true := by
    simp [hneeds.mpr full, objects]
  rw [if_pos more]
  apply settles_bind evicted
  intro p done
  obtain ⟨succeeded, rest⟩ := done
  dsimp only
  rw [if_pos succeeded]
  exact rest

/--
What answering requests relies on; `caches` tells which objects a state holds
and `absent` which ones may be admitted.
-/
structure Admissible (t : Tolerance) (caches absent : σ → Nat → Prop) (sound : σ → Prop) : Prop where
  account_withAccount : ∀ (s : σ) (a : Account), account (withAccount s a) = a
  begun : ∀ (s : σ) (req : Request), sound s → sound (withAccount s ((account s).begun req))
  within : ∀ s : σ, sound s → (account s).occupied ≤ (account s).capacity
  evictable : ∀ s : σ, sound s → 0 < (account s).occupied →
    0 < (account s).objects ∧ 0 < evictable s
  check : ∀ (s : σ) (req : Request) (update : Bool), sound s →
    Settles t (check s req update) fun p => sound p.2 ∧ (account s).SameTerms (account p.2) ∧
      (update = true → (p.1 = .hit → caches p.2 req.id) ∧ (p.1 ≠ .hit → absent p.2 req.id))
  evict : ∀ (s : σ) (req : Request), sound s →
    Settles t (evict s req) fun p => sound p.2 ∧ (account s).SameTerms (account p.2) ∧
      (∀ id, absent s id → absent p.2 id) ∧ (0 < (account s).occupied → p.1 = true) ∧
      (p.1 = true → EvictionPolicy.evictable p.2 < EvictionPolicy.evictable s)
  insert : ∀ (s : σ) (req : Request), sound s → absent s req.id →
    (account s).occupied + (req.size + (account s).overhead) ≤ (account s).capacity →
    Settles t (insert s req) fun p => sound p.2 ∧ (account s).SameTerms (account p.2) ∧
      caches p.2 req.id

/-- What serving requests relies on, which includes what a policy learns from them. -/
structure Dependable (t : Tolerance) (caches absent : σ → Nat → Prop) (sound : σ → Prop) : Prop
    extends Admissible t caches absent sound where
  remove : ∀ (s : σ) (id : Nat), sound s → Settles t (remove s id) fun p => sound p.2
  settle : ∀ (s : σ) (hit : Bool), sound s →
    Settles t (settle s hit) fun s' => sound s' ∧ (account s).SameTerms (account s') ∧
      ∀ id, caches s' id ↔ caches s id

namespace Admissible
variable {t : Tolerance} {caches absent : σ → Nat → Prop} {sound : σ → Prop}
  (d : Admissible t caches absent sound)
include d

/-- The evictions that make room never fail and are never too many. -/
theorem settles_makeRoom {req : Request} {tries : Nat} {s : σ} (hs : sound s)
    (fits : req.size + (account s).overhead ≤ (account s).capacity)
    (enough : EvictionPolicy.evictable s ≤ tries) :
    Settles t (makeRoom req tries s) fun p => p.1 = true ∧ sound p.2 ∧
      (account s).SameTerms (account p.2) ∧ (∀ id, absent s id → absent p.2 id) ∧
      (account p.2).occupied + (req.size + (account p.2).overhead) ≤ (account p.2).capacity := by
  induction tries using Nat.strongRecOn generalizing s with
  | ind tries ih =>
    unfold makeRoom
    refine settles_bind ((account s).settles_needsRoom req.size) fun needs hneeds => ?_
    by_cases full : (account s).capacity < (account s).occupied + (req.size + (account s).overhead)
    · -- Then bytes are occupied, so something can go and another try is left.
      have occupied : 0 < (account s).occupied := by omega
      obtain ⟨objects, pos⟩ := d.evictable s hs occupied
      have more : (needs && decide (0 < (account s).objects)) = true := by
        simp [hneeds.mpr full, objects]
      rw [if_pos more]
      cases tries with
      | zero => omega
      | succ tries =>
        refine settles_bind (d.evict s req hs) ?_
        rintro ⟨evicted, s'⟩ ⟨hs', terms, keeps, succeeds, fewer⟩
        have done : evicted = true := succeeds occupied
        subst done
        dsimp only at hs' terms keeps fewer ⊢
        have less := fewer rfl
        rw [if_pos rfl]
        refine (ih tries (by omega) hs' ?_ ?_).mono ?_
        · rw [terms.capacity, terms.overhead]
          exact fits
        · omega
        · rintro p ⟨made, hp, terms', keeps', room⟩
          exact ⟨made, hp, terms.trans terms', fun id h => keeps' id (keeps id h), room⟩
    · have enough : needs = false := by
        rw [← Bool.not_eq_true, hneeds]
        exact full
      rw [enough]
      exact settles_pure ⟨rfl, hs, .refl _, fun _ h => h, Nat.le_of_not_lt full⟩

theorem settles_takeIn {req : Request} {s : σ} (hs : sound s) (missed : absent s req.id) :
    Settles t (takeIn s req) fun s' => sound s' ∧ (account s).SameTerms (account s') ∧
      (req.size + (account s).overhead ≤ (account s).capacity → caches s' req.id) := by
  unfold takeIn
  refine settles_bind ((account s).settles_admits req.size) fun fits hfits => ?_
  by_cases small : req.size + (account s).overhead ≤ (account s).capacity
  · rw [if_pos (hfits.mpr small)]
    refine settles_bind (d.settles_makeRoom hs small (Nat.le_refl _)) ?_
    rintro ⟨made, s'⟩ ⟨rfl, hs', terms, keeps, room⟩
    dsimp only
    rw [if_pos rfl]
    refine settles_bind (d.insert s' req hs' (keeps _ missed) room) ?_
    rintro ⟨i, s''⟩ ⟨hs'', terms', cached⟩
    exact settles_pure ⟨hs'', terms.trans terms', fun _ => cached⟩
  · rw [if_neg (mt hfits.mp small)]
    exact settles_pure ⟨hs, .refl _, fun h => absurd h small⟩

theorem settles_answer (s : σ) (req : Request) (hs : sound s) :
    Settles t (answer s req) fun p => sound p.2 ∧
      (account p.2).capacity = (account s).capacity ∧
      (account p.2).requests = (account s).requests + 1 ∧ (account p.2).clock = req.time ∧
      (req.size + (account s).overhead ≤ (account s).capacity → caches p.2 req.id) := by
  unfold answer
  refine settles_bind ((account s).settles_begin req) ?_
  rintro _ rfl
  unfold respond
  have begun := d.begun s req hs
  have terms := d.account_withAccount s ((account s).begun req)
  generalize withAccount s ((account s).begun req) = b at begun terms ⊢
  have capacity : (account b).capacity = (account s).capacity := by rw [terms]; rfl
  have overhead : (account b).overhead = (account s).overhead := by rw [terms]; rfl
  have requests : (account b).requests = (account s).requests + 1 := by rw [terms]; rfl
  have clock : (account b).clock = req.time := by rw [terms]; rfl
  refine settles_bind (d.check b req true begun) ?_
  rintro ⟨outcome, c⟩ ⟨hc, same, hit⟩
  have miss : outcome ≠ .hit → Settles t (do
      let s ← takeIn c req
      pure (false, s)) fun p => sound p.2 ∧
      (account p.2).capacity = (account s).capacity ∧
      (account p.2).requests = (account s).requests + 1 ∧ (account p.2).clock = req.time ∧
      (req.size + (account s).overhead ≤ (account s).capacity → caches p.2 req.id) := by
    intro h
    refine settles_bind (d.settles_takeIn hc ((hit rfl).2 h)) ?_
    rintro e ⟨he, same', cached⟩
    rw [same.overhead, same.capacity, overhead, capacity] at cached
    exact settles_pure ⟨he, by rw [same'.capacity, same.capacity, capacity],
      by rw [same'.requests, same.requests, requests], by rw [same'.clock, same.clock, clock], cached⟩
  cases outcome with
  | hit =>
    exact settles_pure ⟨hc, by rw [same.capacity, capacity], by rw [same.requests, requests],
      by rw [same.clock, clock], fun _ => (hit rfl).1 rfl⟩
  | miss => exact miss nofun
  | expired => exact miss nofun

theorem settles_makingRoom (s : σ) (req : Request) (evictions : Nat) (hs : sound s) :
    Settles t (makingRoom s req evictions) sound := by
  unfold makingRoom
  refine settles_bind ((account s).settles_begin req) fun begun e => ?_
  subst e
  refine settles_bind (d.check _ req true (d.begun s req hs)) fun p checked => ?_
  refine settles_foldlM checked.1 fun b hb _ _ => ?_
  exact settles_map ((d.evict b req hb).mono fun q evicted => evicted.1)

end Admissible

namespace Dependable
variable {t : Tolerance} {caches absent : σ → Nat → Prop} {sound : σ → Prop}
  (d : Dependable t caches absent sound)
include d

theorem settles_serve (s : σ) (req : Request) (hs : sound s) :
    Settles t (serve s req) fun p => sound p.2 ∧
      (account p.2).occupied ≤ (account p.2).capacity ∧
      (account p.2).capacity = (account s).capacity ∧
      (account p.2).requests = (account s).requests + 1 ∧
      (req.size + (account s).overhead ≤ (account s).capacity → caches p.2 req.id) := by
  rw [serve_eq]
  refine settles_bind (d.settles_answer s req hs) ?_
  rintro ⟨hit, b⟩ ⟨hb, capacity, requests, -, cached⟩
  refine settles_bind (d.settle b hit hb) ?_
  rintro c ⟨hc, same, keeps⟩
  refine settles_pure ⟨hc, d.within c hc, by rw [same.capacity, capacity],
    by rw [same.requests, requests], fun fits => ?_⟩
  exact (keeps req.id).mpr (cached fits)

theorem settles_perform (s : σ) (op : Operation) (hs : sound s) :
    Settles t (perform s op) sound := by
  cases op with
  | get req => exact settles_map ((d.settles_serve s req hs).mono fun p hp => hp.1)
  | check req update => exact settles_map ((d.check s req update hs).mono fun p hp => hp.1)
  | remove id => exact settles_map (d.remove s id hs)
  | evict req => exact settles_map ((d.evict s req hs).mono fun p hp => hp.1)

/-- Every state that a run reaches is sound. -/
theorem settles_run (s : σ) (ops : List Operation) (hs : sound s) : Settles t (run s ops) sound :=
  settles_foldlM hs fun b hb op _ => d.settles_perform b op hb

/-- What sound states have in common holds after a run, and while room is made then. -/
theorem settles_throughout {good : σ → Prop} (common : ∀ s, sound s → good s) (s : σ) (ops : List Operation)
    (hs : sound s) : Settles t (run s ops) fun b =>
      good b ∧ ∀ (req : Request) (evictions : Nat), Settles t (makingRoom b req evictions) good := by
  apply (d.settles_run s ops hs).mono
  intro b hb
  refine ⟨common b hb, fun req evictions => ?_⟩
  exact (d.settles_makingRoom b req evictions hb).mono common

end Dependable
end EvictionPolicy
end CacheReplay
