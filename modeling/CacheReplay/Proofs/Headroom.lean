import CacheReplay.Proofs.Observation

set_option autoImplicit false

namespace CacheReplay

namespace Account
variable (a : Account) (size : Nat)

def tally : Nat := a.objects + a.expired

theorem settles_release_tally : Settles .any (a.release size) fun b => b.tally ≤ a.tally := by
  apply settles_bind (settles_any (a.footprint size))
  intro bytes _
  split
  · apply settles_pure
    change a.objects - 1 + a.expired ≤ a.objects + a.expired
    omega
  · trivial

variable {a size}

theorem begin_of_isWord (req : Request) (word : IsWord (a.requests + 1)) :
    a.begin req = .ok (a.begun req) := by
  rw [Account.begin, addWord_of_isWord word]
  rfl

theorem admits_of_isWord (word : IsWord (size + a.overhead)) :
    a.admits size = .ok (decide (size + a.overhead ≤ a.capacity)) := by
  rw [admits, footprint_of_isWord word]
  rfl

theorem needsRoom_of_isWord (word : IsWord (a.occupied + (size + a.overhead))) :
    a.needsRoom size = .ok (decide (a.capacity < a.occupied + (size + a.overhead))) := by
  have bytes := footprint_of_isWord (a := a) (word.of_le (Nat.le_add_left ..))
  rw [needsRoom, bytes, ok_bind, addWord_of_isWord word]
  rfl

theorem charge_of_isWord (word : IsWord (a.occupied + (size + a.overhead)))
    (count : IsWord (a.objects + 1)) : a.charge size = .ok (a.charged size) := by
  have bytes := footprint_of_isWord (a := a) (word.of_le (Nat.le_add_left ..))
  rw [charge, bytes, ok_bind, addWord_of_isWord word, ok_bind, addWord_of_isWord count]
  rfl

theorem recordExpired_of_isWord (word : IsWord (a.expired + 1)) :
    a.recordExpired = .ok { a with expired := a.expired + 1 } := by
  rw [recordExpired, addWord_of_isWord word]
  rfl

theorem settles_recordExpired_counts {t : Tolerance} (a : Account) :
    Settles t a.recordExpired fun b => b = { a with expired := a.expired + 1 } := by
  apply settles_bind (settles_addWord a.expired 1)
  intro expired sum
  rw [sum.1]
  exact settles_pure rfl

end Account

def Request.Timely (req : Request) : Prop := ∀ d, req.ttl = some d → IsTime (req.time + d)

instance (req : Request) : Decidable req.Timely :=
  inferInstanceAs (Decidable (∀ d ∈ req.ttl, IsTime (req.time + d)))

theorem Store.exists_insert {μ : Type} {s : Store μ} {req : Request} (now : Int) (tag : μ)
    (free : s.find? req.id = none) (timely : req.Timely) : ∃ p, s.insert req now tag = .ok p := by
  have fresh : ∃ r, Record.ofRequest req now tag = .ok r := by
    unfold Record.ofRequest
    cases ttl : req.ttl with
    | none => exact ⟨_, rfl⟩
    | some d =>
      have sum : addTime req.time d = .ok (req.time + d) := if_pos (timely d ttl)
      rw [Option.mapM_some, sum]
      exact ⟨_, rfl⟩
  obtain ⟨r, hr⟩ := fresh
  simp only [insert, isSome_live_entry, caches, free, hr]
  exact ⟨_, rfl⟩

namespace Operation

/-- By how much an operation may raise a counter. -/
def cost (overhead : Nat) : Operation → Nat
  | .get req => max 1 (req.size + overhead)
  | .check _ _ => 0
  | .remove _ => 0
  | .evict req => req.size + overhead

def Timely : Operation → Prop
  | .get req => req.Timely
  | .check _ _ => True
  | .remove _ => True
  | .evict _ => True

section
variable {reqs : List Request}

theorem sum_cost_of_units (units : ∀ req ∈ reqs, req.size = 1) :
    ((reqs.map get).map (cost 0)).sum = reqs.length := by
  induction reqs with
  | nil => rfl
  | cons req reqs ih =>
    have rest := ih fun r hr => units r (List.mem_cons_of_mem req hr)
    rw [List.map_cons, List.map_cons, List.sum_cons, rest, List.length_cons, cost,
      units req List.mem_cons_self]
    omega

theorem timely_of_units (forever : ∀ req ∈ reqs, req.ttl = none) : ∀ op ∈ reqs.map get, op.Timely := by
  intro op hop
  obtain ⟨req, hreq, rfl⟩ := List.mem_map.mp hop
  intro d ttl
  rw [forever req hreq] at ttl
  cases ttl

end

end Operation

namespace EvictionPolicy
variable {σ : Type} [EvictionPolicy σ] {t : Tolerance} {caches absent : σ → Nat → Prop}
  {sound : σ → Prop} {bytes : σ → Nat}

structure BuiltWith (capacity overhead : Nat) (s : σ) : Prop where
  capacity : (account s).capacity = capacity
  overhead : (account s).overhead = overhead

theorem BuiltWith.same {capacity overhead : Nat} {s s' : σ} (h : BuiltWith capacity overhead s)
    (same : (account s).SameTerms (account s')) : BuiltWith capacity overhead s' :=
  ⟨same.capacity.trans h.capacity, same.overhead.trans h.overhead⟩

/-- No operation changes what a cache was built with, if a removal does not. -/
theorem Dependable.keeps_builtWith (d : Dependable t caches absent sound) (capacity overhead : Nat)
    (removes : ∀ (s : σ) (id : Nat), sound s →
      Settles t (EvictionPolicy.remove s id) fun p => (account s).SameTerms (account p.2)) :
    Keeps t absent sound (BuiltWith capacity overhead) where
  begun s req _ h := by
    constructor
    · rw [d.account_withAccount]
      exact h.capacity
    · rw [d.account_withAccount]
      exact h.overhead
  check s req update hs h := (d.check s req update hs).mono fun _ done => h.same done.2.1
  evict s req hs h := (d.evict s req hs).mono fun _ done => h.same done.2.1
  insert s req hs h free room := (d.insert s req hs free room).mono fun _ done => h.same done.2.1
  remove s id hs h := (removes s id hs).mono fun _ same => h.same same
  settle s hit hs h := (d.settle s hit hs).mono fun _ done => h.same done.2.1

namespace Admissible
variable (d : Admissible t caches absent sound) (good : σ → Prop) {req : Request}
  (word : ∀ s : σ, sound s → good s →
    IsWord ((account s).occupied + (req.size + (account s).overhead)))
  (evict : ∀ s : σ, sound s → good s → Yields (EvictionPolicy.evict s req) fun p => good p.2)
include d word evict

theorem yields_makeRoom (tries : Nat) {s : σ} (hs : sound s) (h : good s) :
    Yields (makeRoom req tries s) fun p => good p.2 := by
  induction tries generalizing s with
  | zero =>
    unfold makeRoom
    rw [Account.needsRoom_of_isWord (word s hs h), ok_bind]
    split
    · exact yields_pure h
    · exact yields_pure h
  | succ tries ih =>
    unfold makeRoom
    rw [Account.needsRoom_of_isWord (word s hs h), ok_bind]
    split
    · apply yields_bind ((evict s hs h).and (d.evict s req hs))
      intro p evicted
      obtain ⟨kept, hp, -⟩ := evicted
      dsimp only
      split
      · exact ih hp kept
      · exact yields_pure kept
    · exact yields_pure h

variable {after : σ → Prop} (idle : ∀ s, good s → after s)
  (insert : ∀ s : σ, sound s → good s → absent s req.id →
    (account s).occupied + (req.size + (account s).overhead) ≤ (account s).capacity →
    Yields (EvictionPolicy.insert s req) fun p => after p.2)
include idle insert

theorem yields_takeIn {s : σ} (hs : sound s) (missed : absent s req.id) (h : good s) :
    Yields (takeIn s req) after := by
  unfold takeIn
  rw [Account.admits_of_isWord ((word s hs h).of_le (Nat.le_add_left ..)), ok_bind]
  split
  · rename_i small
    apply yields_bind ((d.yields_makeRoom good word evict (EvictionPolicy.evictable s) hs h).and
      (d.settles_makeRoom hs (of_decide_eq_true small) (Nat.le_refl _)))
    intro p made
    obtain ⟨kept, full, hp, -, keeps, room⟩ := made
    dsimp only
    rw [if_pos full]
    apply yields_bind (insert p.2 hp kept (keeps _ missed) room)
    intro q done
    exact yields_pure done
  · exact yields_pure (idle s h)

theorem yields_answer {s : σ} (hs : sound s) (count : IsWord ((account s).requests + 1))
    (check : Yields (EvictionPolicy.check (withAccount s ((account s).begun req)) req true) fun p => good p.2) :
    Yields (answer s req) fun p => after p.2 := by
  unfold answer
  rw [Account.begin_of_isWord req count, ok_bind]
  unfold respond
  apply yields_bind (check.and (d.check _ req true (d.begun s req hs)))
  intro p looked
  obtain ⟨kept, hp, -, hit⟩ := looked
  have missed : p.1 ≠ .hit → Yields (do
      let s ← takeIn p.2 req
      pure (false, s)) fun p => after p.2 := by
    intro miss
    apply yields_bind (d.yields_takeIn good word evict idle insert hp ((hit rfl).2 miss) kept)
    intro c done
    exact yields_pure done
  obtain ⟨outcome, c⟩ := p
  cases outcome with
  | hit => exact yields_pure (idle c kept)
  | miss => exact missed nofun
  | expired => exact missed nofun

end Admissible

/-- No counter went up by more than an admission of `added` bytes. -/
structure Grows (bytes : σ → Nat) (s : σ) (objects added : Nat) (s' : σ) : Prop where
  tally : (account s').tally ≤ (account s).tally + objects
  bytes : bytes s' ≤ bytes s + added

theorem Grows.refl (s : σ) : Grows bytes s 0 0 s := ⟨Nat.le_refl _, Nat.le_refl _⟩

theorem Grows.trans {a b c : σ} {m n k l : Nat} (h : Grows bytes a m k b) (g : Grows bytes b n l c) :
    Grows bytes a (m + n) (k + l) c := by
  have tally := h.tally
  have sum := h.bytes
  have tally' := g.tally
  have sum' := g.bytes
  exact ⟨by omega, by omega⟩

/--
What a policy needs in order to answer: its bytes are in range and stay there
when those of a request come in.
-/
structure Roomy (bytes : σ → Nat) (absent : σ → Nat → Prop) (sound : σ → Prop) : Prop where
  occupied : ∀ s : σ, sound s → (account s).occupied ≤ bytes s
  begun : ∀ (s : σ) (req : Request), bytes (withAccount s ((account s).begun req)) = bytes s
  check : ∀ (s : σ) (req : Request) (update : Bool), sound s → IsWord (account s).tally →
    IsWord (bytes s) → Yields (check s req update) fun p => Grows bytes s 0 0 p.2
  evict : ∀ (s : σ) (req : Request), sound s → IsWord (bytes s + (req.size + (account s).overhead)) →
    Yields (evict s req) fun p => Grows bytes s 0 0 p.2
  insert : ∀ (s : σ) (req : Request), sound s → absent s req.id →
    (account s).occupied + (req.size + (account s).overhead) ≤ (account s).capacity →
    IsWord (bytes s + (req.size + (account s).overhead)) → IsWord ((account s).tally + 1) →
    req.Timely →
    Yields (insert s req) fun p => Grows bytes s 1 (req.size + (account s).overhead) p.2
  remove : ∀ (s : σ) (id : Nat), sound s → IsWord (bytes s) →
    Yields (remove s id) fun p => Grows bytes s 0 0 p.2 ∧ (account s).SameTerms (account p.2)
  settle : ∀ (s : σ) (hit : Bool), sound s → Yields (settle s hit) fun s' => Grows bytes s 0 0 s'

/-- So much may still be added to the counters. -/
structure Spare (bytes : σ → Nat) (n : Nat) (s : σ) : Prop where
  tally : (account s).tally ≤ (account s).requests
  requests : IsWord ((account s).requests + n)
  bytes : IsWord (bytes s + n)

theorem Spare.of_grows {n : Nat} {s s' : σ} (h : Spare bytes n s) (lean : Grows bytes s 0 0 s')
    (same : (account s).SameTerms (account s')) : Spare bytes n s' := by
  have tally := h.tally
  have fewer := lean.tally
  have less := lean.bytes
  constructor
  · rw [same.requests]
    omega
  · rw [same.requests]
    exact h.requests
  · exact h.bytes.of_le (by omega)

theorem Spare.weaken {m n : Nat} {s : σ} (h : Spare bytes n s) (le : m ≤ n) : Spare bytes m s :=
  ⟨h.tally, h.requests.of_le (by omega), h.bytes.of_le (by omega)⟩

namespace Roomy
variable (r : Roomy bytes absent sound) (d : Dependable t caches absent sound)
include r d

theorem yields_answer {req : Request} {s : σ} {n : Nat} (hs : sound s)
    (spare : Spare bytes (max 1 (req.size + (account s).overhead) + n) s) (timely : req.Timely) :
    Yields (answer s req) fun p => Spare bytes n p.2 := by
  have one := spare.requests
  have all := spare.bytes
  have tally := spare.tally
  have terms := d.account_withAccount s ((account s).begun req)
  have same := r.begun s req
  have begun := d.begun s req hs
  have count : (account (withAccount s ((account s).begun req))).tally = (account s).tally := by
    rw [terms]
    rfl
  refine d.yields_answer (fun c => Grows bytes s 0 0 c ∧ (account c).overhead = (account s).overhead ∧
      (account c).requests = (account s).requests + 1)
    (fun c hc lean => ?_) (fun c hc lean => ?_) (fun c lean => ?_) (fun c hc lean missed room => ?_)
    hs (one.of_le (by omega)) ?_
  · have less := lean.1.bytes
    have within := r.occupied c hc
    exact all.of_le (by omega)
  · have less := lean.1.bytes
    apply ((r.evict c req hc (all.of_le (by omega))).and (d.evict c req hc)).mono
    intro p evicted
    obtain ⟨leaner, -, kept, -⟩ := evicted
    exact ⟨lean.1.trans leaner, kept.overhead.trans lean.2.1, kept.requests.trans lean.2.2⟩
  · obtain ⟨⟨fewer, less⟩, -, requests⟩ := lean
    exact ⟨by omega, by rw [requests]; exact one.of_le (by omega), all.of_le (by omega)⟩
  · obtain ⟨⟨fewer, less⟩, overhead, requests⟩ := lean
    apply ((r.insert c req hc missed room (all.of_le (by omega)) (one.of_le (by omega)) timely).and
      (d.insert c req hc missed room)).mono
    intro p inserted
    obtain ⟨⟨more, added⟩, -, kept, -⟩ := inserted
    refine ⟨?_, ?_, all.of_le (by omega)⟩
    · rw [kept.requests]
      omega
    · rw [kept.requests, requests]
      exact one.of_le (by omega)
  · apply ((r.check _ req true begun (by rw [count]; exact one.of_le (by omega))
      (by rw [same]; exact all.of_le (by omega))).and (d.check _ req true begun)).mono
    intro p looked
    obtain ⟨⟨fewer, less⟩, -, kept, -⟩ := looked
    rw [count] at fewer
    rw [same] at less
    refine ⟨⟨fewer, less⟩, ?_, ?_⟩
    · rw [kept.overhead, terms]
      rfl
    · rw [kept.requests, terms]
      rfl

theorem yields_perform {op : Operation} {s : σ} {n : Nat} (hs : sound s)
    (spare : Spare bytes (op.cost (account s).overhead + n) s) (timely : op.Timely) :
    Yields (perform s op) fun s' => Spare bytes n s' := by
  have one := spare.requests
  have all := spare.bytes
  have tally := spare.tally
  cases op with
  | get req =>
    rw [perform, serve_eq]
    apply yields_map
    apply yields_bind ((r.yields_answer d hs spare timely).and (d.settles_answer s req hs))
    intro p answered
    obtain ⟨left, hp, -⟩ := answered
    apply yields_bind ((r.settle p.2 p.1 hp).and (d.settle p.2 p.1 hp))
    intro c settled
    exact yields_pure (left.of_grows settled.1 settled.2.2.1)
  | check req update =>
    rw [Operation.cost, Nat.zero_add] at spare
    apply yields_map
    have word : IsWord (account s).tally := one.of_le (by omega)
    apply ((r.check s req update hs word (all.of_le (by omega))).and (d.check s req update hs)).mono
    intro p checked
    exact spare.of_grows checked.1 checked.2.2.1
  | remove id =>
    rw [Operation.cost, Nat.zero_add] at spare
    apply yields_map
    apply (r.remove s id hs (all.of_le (by omega))).mono
    intro p removed
    exact spare.of_grows removed.1 removed.2
  | evict req =>
    apply yields_map
    rw [Operation.cost] at all
    apply ((r.evict s req hs (all.of_le (by omega))).and (d.evict s req hs)).mono
    intro p evicted
    exact (spare.weaken (Nat.le_add_left ..)).of_grows evicted.1 evicted.2.2.1

/-- A run answers whose operations leave the counters in range. -/
theorem exists_run {overhead : Nat} (fixed : ∀ s, sound s → (account s).overhead = overhead)
    {s : σ} {ops : List Operation} (hs : sound s)
    (spare : Spare bytes (ops.map (Operation.cost overhead)).sum s) (timely : ∀ op ∈ ops, op.Timely) :
    ∃ s', run s ops = .ok s' := by
  induction ops generalizing s with
  | nil => exact ⟨s, rfl⟩
  | cons op ops ih =>
    rw [List.map_cons, List.sum_cons, ← fixed s hs] at spare
    have performed := (r.yields_perform d hs spare (timely op List.mem_cons_self)).and
      (d.settles_perform s op hs)
    obtain ⟨c, e, left, hc⟩ := performed
    rw [fixed s hs] at left
    rw [run, List.foldlM_cons, e, ok_bind]
    exact ih hc left fun o ho => timely o (List.mem_cons_of_mem op ho)

end Roomy
end EvictionPolicy
end CacheReplay
