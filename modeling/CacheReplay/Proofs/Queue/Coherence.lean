import CacheReplay.Proofs.Queue.Aging
import CacheReplay.Proofs.Queue.Upkeep

set_option autoImplicit false

namespace CacheReplay
open EvictionPolicy

namespace ObjectQueue
variable {μ : Type}

structure Coherent (capacity overhead : Nat) (q : ObjectQueue μ) : Prop where
  capacity_eq : q.account.capacity = capacity
  overhead_eq : q.account.overhead = overhead
  /-- The queue is linked both ways, from its front to its back and without repetition. -/
  linked : q.order.Represents q.store.records q.slots
  /-- It names every live record of the store once, and no other record. -/
  listed : q.slots.Perm (q.store.liveList.map (·.1))
  live : q.store.liveList = q.store.toList
  indexes : q.store.Consistent
  objects : q.account.objects = q.store.liveList.length ∧ q.account.objects = q.store.size
  occupied : q.account.occupied = (q.store.liveList.map fun e => e.2.size + overhead).sum
  within : q.account.occupied ≤ capacity

namespace Holds
variable {q : ObjectQueue μ} {s : List Slot} (h : q.Holds s)
include h

theorem liveList_eq : q.store.liveList = q.store.toList := by
  rw [Store.liveList, List.filter_eq_self]
  rintro ⟨i, r⟩ he
  have hr : q.store.get? i = some r := (q.store.records.mem_toList_iff i r).mp he
  simp [h.live i r hr]

theorem perm_liveList : s.Perm (q.store.liveList.map (·.1)) := by
  rw [h.liveList_eq]
  apply (List.perm_ext_iff_of_nodup h.represents.nodup q.store.records.nodup_toList_fst).mpr
  intro i
  rw [h.mem, List.mem_map]
  constructor
  · rintro ⟨r, hr⟩
    exact ⟨(i, r), (q.store.records.mem_toList_iff i r).mpr hr, rfl⟩
  · rintro ⟨⟨j, r⟩, hj, rfl⟩
    exact ⟨r, (q.store.records.mem_toList_iff j r).mp hj⟩

theorem size_eq : q.store.size = q.account.objects :=
  h.consistent.counted.trans h.balanced.objects.symm

theorem coherent {capacity overhead : Nat} (capacity_eq : q.account.capacity = capacity)
    (overhead_eq : q.account.overhead = overhead) : q.Coherent capacity overhead := by
  have listed : q.slots.Perm (q.store.liveList.map (·.1)) := h.slots_eq ▸ h.perm_liveList
  refine ⟨capacity_eq, overhead_eq, ?_, listed, h.liveList_eq, h.consistent, ⟨?_, h.size_eq.symm⟩, ?_, ?_⟩
  · rw [h.slots_eq]
    exact h.represents
  · rw [← h.length_eq, h.perm_liveList.length_eq, List.length_map]
  · rw [q.store.sum_liveList fun r => r.size + overhead, h.balanced.occupied, overhead_eq]
    rfl
  · rw [← capacity_eq]
    exact h.within

theorem audit_eq (kind : QueueKind) {flaw : Option Violation} (none : flaw = none) :
    q.audit kind flaw = pure () := by
  have length : q.order.length = q.store.size := by
    rw [h.represents.length_eq, h.length_eq, h.size_eq]
  simp [audit, length, none, Audit.reject, h.balanced.audit_eq h.consistent h.within]

end Holds
end ObjectQueue

theorem Fifo.flaw_eq_none {c : Fifo} {s : List Slot} (h : c.queue.Holds s) : c.flaw = none := by
  rw [flaw, h.slots_eq, List.findSome?_eq_none_iff]
  intro i hi
  obtain ⟨r, hr, live⟩ := h.exists_get? hi
  have found := (h.consistent.find?_eq_some_iff r.id i).mpr ⟨r, hr, rfl, live⟩
  simp [hr, found]

theorem Lru.disorder_eq_none {q : ObjectQueue Unit} {s : List Slot}
    (stored : ∀ i ∈ s, ∃ r, q.store.get? i = some r) (latest : Option Int)
    (ordered : (latest.toList ++ s.filterMap q.accessedAt).Pairwise fun a b => b ≤ a) :
    disorder q.store latest s = none := by
  induction s generalizing latest with
  | nil => rfl
  | cons i s ih =>
    obtain ⟨r, hr⟩ := stored i List.mem_cons_self
    have accessed : q.accessedAt i = some r.lastAccess := by
      rw [ObjectQueue.accessedAt, hr]
      rfl
    rw [List.filterMap_cons_some accessed] at ordered
    have fine : latest.any (· < r.lastAccess) = false := by
      cases latest with
      | none => rfl
      | some a =>
        have first := (List.pairwise_cons.mp ordered).1 r.lastAccess (by simp)
        simpa using first
    have rest := ih (fun j hj => stored j (List.mem_cons_of_mem i hj)) (some r.lastAccess)
      (ordered.sublist (List.sublist_append_right ..))
    simp [disorder, hr, fine, rest]

theorem Clock.flaw_eq_none {c : Clock} (k : c.Sound) : c.flaw = none := by
  rw [flaw, List.findSome?_eq_none_iff]
  rintro ⟨i, r⟩ he
  have hr : c.queue.store.get? i = some r :=
    (c.queue.store.records.mem_toList_iff i r).mp (List.mem_filter.mp he).1
  exact if_neg (Nat.not_lt.mpr (k.tags i r hr))

theorem Sieve.flaw_eq_none {c : Sieve} (k : c.Sound) : c.flaw = none := by
  have stays : (c.hand.any fun i => !c.queue.store.records.contains i) = false := by
    cases hand : c.hand with
    | none => rfl
    | some i =>
      obtain ⟨r, hr⟩ := k.hand i hand
      simp [Arena.contains, show c.queue.store.records.get? i = some r from hr]
  rw [flaw, stays]
  rfl

theorem Clock.keeps_ceiling {t : Tolerance} (limit : Nat) :
    Keeps t (fun (c : Clock) id => ¬c.queue.store.caches id = true) Clock.Sound
      fun c => c.maxCount = limit where
  begun _ _ _ same := same
  check c req update k same := ((dependable.check c req update k).also
    (settles_bind (settles_any _) fun _ _ => settles_pure same)).mono fun _ done => done.2
  evict _ _ k same := (settles_scan k k.total_le).mono fun _ done => done.1.trans same
  insert c req k same free room := ((dependable.insert c req k free room).also
    (settles_bind (settles_any _) fun _ _ => settles_pure same)).mono fun _ done => done.2
  remove c id k same := ((dependable.remove c id k).also
    (settles_bind (settles_any _) fun _ _ => settles_pure same)).mono fun _ done => done.2
  settle _ _ _ same := settles_pure same

section
variable {σ : Type} [EvictionPolicy σ]

/--
Every run from a state ends where `post` holds, unless arithmetic leaves its
range, and it has an end if its requests, bytes and operations stay in range.
-/
structure Sustains (overhead : Nat) (s : σ) (post : σ → Prop) : Prop where
  settles : ∀ ops, Settles .arithmetic (run s ops) post
  answers : ∀ ops, IsWord (ops.map (Operation.cost overhead)).sum → IsWord ops.length →
    (∀ op ∈ ops, op.Timely) → ∃ d, run s ops = .ok d

theorem EvictionPolicy.Exact.sustains {stored : σ → Nat → Option Nat} {debt : σ → Nat}
    {caches absent : σ → Nat → Prop} {sound strong : σ → Prop} (x : Exact stored debt absent sound)
    (d : Dependable .arithmetic caches absent sound) (handy : Handy debt sound)
    (e : Dependable .arithmetic caches absent strong) {s : σ} {capacity overhead : Nat} {post : σ → Prop}
    (hs : sound s) (start : strong s) (fresh : account s = .empty capacity overhead) (free : debt s = 0)
    (imp : ∀ d, strong d → BuiltWith capacity overhead d → post d) : Sustains overhead s post where
  settles ops := by
    have built : BuiltWith capacity overhead s := ⟨by rw [fresh]; rfl, by rw [fresh]; rfl⟩
    have keeps := d.keeps_builtWith capacity overhead fun s id hs =>
      (handy.remove s id hs).settles.mono fun _ done => done.1.terms
    have terms := (d.keeping keeps).settles_run s ops ⟨hs, built⟩
    exact ((e.settles_run s ops start).and terms).mono fun c done => imp c done.1 done.2.2
  answers ops units count timely :=
    x.exists_run d handy hs (.of_empty fresh free units count) timely

end

/--
Whatever a run of a queue policy has done before, its queue is a linked list of
the live records of its store, each once, its counters agree with the records,
and it passes its audit. The queue of a cache that gives up the least recently
used object is in the order of last accesses as long as the number of requests is
a time; every counter of a clock is at most what its bits hold.
-/
theorem runs_coherent (capacity overhead : Nat) :
    (Sustains overhead (Fifo.empty capacity overhead) fun c =>
      c.queue.Coherent capacity overhead ∧ audit c = pure ()) ∧
    (Sustains overhead (Lru.empty capacity overhead) fun c =>
      c.queue.Coherent capacity overhead ∧ (IsTime c.queue.account.requests →
        (c.queue.accesses.Pairwise fun a b => b ≤ a) ∧ audit c = pure ())) ∧
    (∀ bits c, Clock.withBits capacity overhead bits = .ok c → Sustains overhead c fun d =>
      d.queue.Coherent capacity overhead ∧ (∀ e ∈ d.queue.store.liveList, e.2.tag ≤ 2 ^ bits - 1) ∧
        audit d = pure ()) ∧
    (Sustains overhead (Sieve.empty capacity overhead) fun c =>
      c.queue.Coherent capacity overhead ∧ audit c = pure ()) := by
  refine ⟨?_, ?_, fun bits c accepted => ?_, ?_⟩
  · have kept := ObjectQueue.kept_empty (fun _ : Unit => True) capacity overhead
    apply Fifo.exact.sustains Fifo.dependable Fifo.handy Fifo.dependable kept kept rfl rfl
    rintro c ⟨⟨s, h⟩, -⟩ built
    exact ⟨h.coherent built.capacity built.overhead, h.audit_eq _ (Fifo.flaw_eq_none h)⟩
  · have kept := ObjectQueue.kept_empty (fun _ : Unit => True) capacity overhead
    apply Lru.exact.sustains Lru.dependable Lru.handy (Lru.dependable.keeping Lru.keeps_aged) kept
      ⟨kept, ObjectQueue.aged_empty capacity overhead⟩ rfl rfl
    rintro c ⟨⟨⟨s, h⟩, -⟩, aged⟩ built
    refine ⟨h.coherent built.capacity built.overhead, fun time => ⟨aged.ordered time, h.audit_eq _ ?_⟩⟩
    have ordered := aged.ordered time
    rw [ObjectQueue.accesses, h.slots_eq] at ordered
    have fine := Lru.disorder_eq_none (fun i hi => (h.mem i).mp hi) none ordered
    rw [h.slots_eq]
    exact fine
  · have sound := Clock.sound_of_withBits accepted
    unfold Clock.withBits at accepted
    split at accepted
    · cases accepted
      apply Clock.exact.sustains Clock.dependable Clock.handy
        (Clock.dependable.keeping (Clock.keeps_ceiling (2 ^ bits - 1))) sound ⟨sound, rfl⟩ rfl rfl
      rintro d ⟨k, limit⟩ built
      obtain ⟨s, h⟩ := k.holds
      refine ⟨h.coherent built.capacity built.overhead, fun e he => ?_,
        h.audit_eq _ (Clock.flaw_eq_none k)⟩
      rw [← limit]
      rw [h.liveList_eq] at he
      exact k.tags e.1 e.2 ((d.queue.store.records.mem_toList_iff e.1 e.2).mp he)
    · cases accepted
  · have sound := Sieve.sound_empty capacity overhead
    apply Sieve.exact.sustains Sieve.dependable Sieve.handy Sieve.dependable sound sound rfl rfl
    intro c k built
    obtain ⟨s, h⟩ := k.kept.holds
    exact ⟨h.coherent built.capacity built.overhead, h.audit_eq _ (Sieve.flaw_eq_none k)⟩

/-- A clock of two bits that expires, promotes, removes and evicts. -/
theorem runs_coherent_counters : Clock.withBits 8 1 2 = .ok ⟨.empty 8 1, 3, 0⟩ ∧
    ∃ d, run (⟨.empty 8 1, 3, 0⟩ : Clock) [.get (.ofId 1 2 0), .get ⟨2, 0, 0, none, some 5⟩,
      .get (.ofId 1 2 2), .check ⟨2, 0, 9, none, none⟩ true, .check (.ofId 1 5 9) false,
      .get (.ofId 3 4 9), .remove 3, .evict (.ofId 4 7 9), .get (.ofId 3 4 10)] = .ok d ∧
      d.queue.Coherent 8 1 ∧ (∀ e ∈ d.queue.store.liveList, e.2.tag ≤ 2 ^ 2 - 1) ∧ audit d = pure () := by
  have sustained := (runs_coherent 8 1).2.2.1 2 ⟨.empty 8 1, 3, 0⟩ rfl
  have both : ∀ ops, (∃ d, run (⟨.empty 8 1, 3, 0⟩ : Clock) ops = .ok d) →
      ∃ d, run (⟨.empty 8 1, 3, 0⟩ : Clock) ops = .ok d ∧ d.queue.Coherent 8 1 ∧
        (∀ e ∈ d.queue.store.liveList, e.2.tag ≤ 2 ^ 2 - 1) ∧ audit d = pure () := by
    intro ops answers
    obtain ⟨d, e⟩ := answers
    have kept := sustained.settles ops
    rw [e] at kept
    exact ⟨d, e, kept⟩
  refine ⟨rfl, both _ (sustained.answers _ (by decide) (by decide) ?_)⟩
  simp [Operation.Timely, Request.Timely, IsTime, timeBound, Request.ofId]

end CacheReplay
