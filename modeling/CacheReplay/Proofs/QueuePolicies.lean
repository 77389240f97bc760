import CacheReplay.Policy.Clock
import CacheReplay.Policy.Fifo
import CacheReplay.Policy.Lru
import CacheReplay.Policy.Sieve
import CacheReplay.Proofs.Queue
import Mathlib.Algebra.Order.BigOperators.Group.List

set_option autoImplicit false

namespace CacheReplay

open ObjectQueue

variable {t : Tolerance}

namespace Fifo

theorem dependable : EvictionPolicy.Dependable t
    (fun (c : Fifo) id => c.queue.store.caches id = true)
    (fun c id => ¬c.queue.store.caches id = true) fun c => c.queue.Kept fun _ => True where
  account_withAccount _ _ := rfl
  begun _ req k := k.begun req
  within _ k := k.within
  evictable _ k some := ⟨k.occupied_pos some, k.occupied_pos some⟩
  check c req update k := by
    refine settles_bind (k.settles_check fun i r _ => ?_) ?_
    · exact settles_pure ⟨k.touch i req fun _ h => h, rfl, rfl⟩
    · intro p done
      obtain ⟨kept, terms, hit⟩ := done
      exact settles_pure ⟨kept, terms, fun u => ⟨(hit u).mp, mt (hit u).mpr⟩⟩
  evict c req k := by
    refine settles_bind k.settles_dropLast fun p evicted => settles_pure ?_
    exact ⟨evicted.kept, evicted.terms, fun id => mt (evicted.shrinks id),
      fun some => evicted.succeeds (k.occupied_pos some), evicted.fewer⟩
  insert c req k free room :=
    settles_bind (k.settles_push trivial free room) fun p pushed => settles_pure pushed
  remove c id k := settles_bind (k.settles_remove id) fun p kept => settles_pure kept
  settle c hit k := settles_pure ⟨k, .refl _, fun _ => Iff.rfl⟩

end Fifo

namespace Lru

theorem dependable : EvictionPolicy.Dependable t
    (fun (c : Lru) id => c.queue.store.caches id = true)
    (fun c id => ¬c.queue.store.caches id = true) fun c => c.queue.Kept fun _ => True where
  account_withAccount _ _ := rfl
  begun _ req k := k.begun req
  within _ k := k.within
  evictable _ k some := ⟨k.occupied_pos some, k.occupied_pos some⟩
  check c req update k := by
    refine settles_bind (k.settles_check fun i r hr => ?_) ?_
    · have touched := k.touch i req (f := id) fun _ h => h
      obtain ⟨s, h⟩ := touched.holds
      have hi : i ∈ s := (h.mem i).mpr ⟨_, (Store.get?_modify ..).trans (by rw [if_pos rfl, hr]; rfl)⟩
      obtain ⟨order, records, e, kept, -⟩ := touched.moveToFront h hi
      rw [e]
      exact ⟨kept, rfl, rfl⟩
    · intro p done
      obtain ⟨kept, terms, hit⟩ := done
      exact settles_pure ⟨kept, terms, fun u => ⟨(hit u).mp, mt (hit u).mpr⟩⟩
  evict c req k := by
    refine settles_bind k.settles_dropLast fun p evicted => settles_pure ?_
    exact ⟨evicted.kept, evicted.terms, fun id => mt (evicted.shrinks id),
      fun some => evicted.succeeds (k.occupied_pos some), evicted.fewer⟩
  insert c req k free room :=
    settles_bind (k.settles_push trivial free room) fun p pushed => settles_pure pushed
  remove c id k := settles_bind (k.settles_remove id) fun p kept => settles_pure kept
  settle c hit k := settles_pure ⟨k, .refl _, fun _ => Iff.rfl⟩

end Lru

namespace Clock

def Sound (c : Clock) : Prop := c.queue.Kept (· ≤ c.maxCount)

theorem sound_of_withBits {capacity overhead bits : Nat} {c : Clock}
    (accepted : withBits capacity overhead bits = .ok c) : c.Sound := by
  unfold withBits at accepted
  split at accepted
  · cases accepted
    exact kept_empty _ capacity overhead
  · cases accepted

theorem settles_scan {steps : Nat} {c : Clock} (k : c.Sound)
    (enough : c.queue.store.records.total (·.tag) ≤ steps) :
    Settles t (scan steps c) fun p => p.2.maxCount = c.maxCount ∧
      Evicted (· ≤ c.maxCount) c.queue p.1 p.2.queue := by
  induction steps using Nat.strongRecOn generalizing c with
  | ind steps ih =>
    obtain ⟨s, h⟩ := k.holds
    unfold scan
    cases back : c.queue.order.back with
    | none =>
      refine settles_pure ⟨rfl, k, .refl _, fun _ cached => cached, fun some => ?_, nofun⟩
      obtain ⟨i, -, other⟩ := h.back some
      rw [back] at other
      cases other
    | some i =>
      have hi : i ∈ s := List.mem_of_getLast? (h.represents.back_eq ▸ back)
      obtain ⟨r, hr, -⟩ := h.exists_get? hi
      have part := c.queue.store.records.weight_le_total (·.tag) i
      rw [Arena.weight_of_get? hr] at part
      simp only [hr, Option.elim_some]
      cases count : r.tag with
      | zero =>
        refine settles_bind (k.settles_drop hr) fun queue evicted => ?_
        exact settles_pure ⟨rfl, evicted⟩
      | succ n =>
        cases steps with
        | zero => omega
        | succ steps =>
          dsimp only
          -- The counter of the object at the back pays for the step.
          have paid := Arena.total_modify hr (fun r => { r with tag := n }) (·.tag)
          have limit := k.tags i r hr
          have lowered := k.modify i (f := fun r => { r with tag := n })
            (fun _ => ⟨rfl, rfl, rfl, rfl⟩) fun _ _ => show n ≤ c.maxCount by omega
          obtain ⟨s', h'⟩ := lowered.holds
          have hi' : i ∈ s' := (h'.mem i).mpr
            ⟨_, (Store.get?_modify ..).trans (by rw [if_pos rfl, hr]; rfl)⟩
          obtain ⟨order, records, e, moved, same⟩ := lowered.moveToFront h' hi'
          have total := same.total (w := (·.tag)) (·.tag) fun _ => rfl
          rw [e]
          refine settles_ok_bind (settles_bind (settles_addWord c.reinserted 1) ?_)
          intro reinserted _
          refine (ih steps (Nat.lt_succ_self steps) (c := ⟨_, c.maxCount, reinserted⟩) moved ?_).mono ?_
          · show records.total (·.tag) ≤ steps
            rw [total]
            dsimp only [Store.modify] at paid ⊢
            omega
          · intro p done
            exact ⟨done.1, done.2.of_same rfl fun _ => rfl⟩

/-- All counters together are not above the ceiling times the length of the queue. -/
theorem Sound.total_le {c : Clock} (k : c.Sound) :
    c.queue.store.records.total (·.tag) ≤ c.maxCount * c.queue.order.length := by
  obtain ⟨s, h⟩ := k.holds
  rw [h.represents.length_eq, Nat.mul_comm,
    ← Arena.sum_eq_total h.represents.nodup fun i r hr _ => (h.mem i).mpr ⟨r, hr⟩]
  have le := List.sum_le_card_nsmul (s.map (c.queue.store.records.weight (·.tag))) c.maxCount ?_
  · simpa using le
  · intro n hn
    obtain ⟨i, hi, rfl⟩ := List.mem_map.mp hn
    obtain ⟨r, hr⟩ := (h.mem i).mp hi
    rw [Arena.weight_of_get? hr]
    exact k.tags i r hr

theorem dependable : EvictionPolicy.Dependable t
    (fun (c : Clock) id => c.queue.store.caches id = true)
    (fun c id => ¬c.queue.store.caches id = true) Sound where
  account_withAccount _ _ := rfl
  begun _ req k := k.begun req
  within _ k := k.within
  evictable _ k some := ⟨k.occupied_pos some, k.occupied_pos some⟩
  check c req update k := by
    refine settles_bind (k.settles_check fun i r _ => ?_) ?_
    · exact settles_pure ⟨k.touch i req fun n _ => Nat.min_le_right _ _, rfl, rfl⟩
    · intro p done
      obtain ⟨kept, terms, hit⟩ := done
      exact settles_pure ⟨kept, terms, fun u => ⟨(hit u).mp, mt (hit u).mpr⟩⟩
  evict c req k := by
    refine (settles_scan k k.total_le).mono fun p done => ?_
    obtain ⟨limit, evicted⟩ := done
    refine ⟨?_, evicted.terms, fun id => mt (evicted.shrinks id),
      fun some => evicted.succeeds (k.occupied_pos some), evicted.fewer⟩
    show p.2.queue.Kept (· ≤ p.2.maxCount)
    rw [limit]
    exact evicted.kept
  insert c req k free room :=
    settles_bind (k.settles_push (Nat.zero_le _) free room) fun p pushed => settles_pure pushed
  remove c id k := settles_bind (k.settles_remove id) fun p kept => settles_pure kept
  settle c hit k := settles_pure ⟨k, .refl _, fun _ => Iff.rfl⟩

end Clock

namespace Sieve

structure Sound (c : Sieve) : Prop where
  kept : c.queue.Kept fun _ => True
  hand : ∀ i, c.hand = some i → ∃ r, c.queue.store.get? i = some r

theorem sound_empty (capacity overhead : Nat) : (empty capacity overhead).Sound :=
  ⟨kept_empty _ capacity overhead, nofun⟩

theorem settles_drop_hand {q : ObjectQueue Bool} (k : q.Kept fun _ => True) {i : Slot}
    {r : Record Bool} (hr : q.store.get? i = some r) {hand : Option Slot}
    (apart : ∀ j, hand = some j → j ≠ i ∧ ∃ u, q.store.get? j = some u) :
    Settles t (q.drop i) fun q' => Sound ⟨q', hand⟩ ∧ Evicted (fun _ => True) q true q' ∧
      ∀ id, q'.store.caches id = true ↔ q.store.caches id = true ∧ id ≠ r.id := by
  obtain ⟨s, h⟩ := k.holds
  refine ((h.settles_drop hr).and (k.settles_drop hr)).mono fun q' dropped => ?_
  obtain ⟨⟨-, -, get, caches⟩, evicted⟩ := dropped
  refine ⟨⟨evicted.kept, fun j hj => ?_⟩, evicted, caches⟩
  obtain ⟨hji, u, hu⟩ := apart j hj
  have e := get j
  rw [if_neg (Ne.symm hji), hu] at e
  obtain ⟨v, hv, -⟩ := Option.map_eq_some_iff.mp e
  exact ⟨v, hv⟩

theorem prevOf_apart {q : ObjectQueue Bool} {s : List Slot} (h : q.Holds s) {i j : Slot}
    {r : Record Bool} (hr : q.store.get? i = some r) (e : q.store.records.prevOf i = some j) :
    j ≠ i ∧ ∃ u, q.store.get? j = some u := by
  obtain ⟨hj, apart⟩ := h.represents.prevOf_mem ((h.mem i).mpr ⟨r, hr⟩) e
  exact ⟨apart, (h.mem j).mp hj⟩

theorem settles_drop {c : Sieve} (k : c.Sound) {i : Slot} {r : Record Bool}
    (hr : c.queue.store.get? i = some r) :
    Settles t (c.drop i) fun c' => c'.Sound ∧ Evicted (fun _ => True) c.queue true c'.queue ∧
      ∀ id, c'.queue.store.caches id = true ↔ c.queue.store.caches id = true ∧ id ≠ r.id := by
  obtain ⟨s, h⟩ := k.kept.holds
  unfold drop
  refine settles_bind (settles_drop_hand k.kept hr fun j hj => ?_) fun q' done => settles_pure done
  split at hj
  · exact prevOf_apart h hr hj
  · rename_i other
    exact ⟨fun e => other (e ▸ hj), k.hand j hj⟩

theorem advance_mem {c : Sieve} {s : List Slot} (h : c.queue.Holds s) {i : Slot} (hi : i ∈ s) :
    ∃ j ∈ s, c.advance i = some j := by
  unfold advance
  cases e : c.queue.store.records.prevOf i with
  | some j => exact ⟨j, (h.represents.prevOf_mem hi e).1, rfl⟩
  | none =>
    have ne : s ≠ [] := List.ne_nil_of_mem hi
    refine ⟨s.getLast ne, List.getLast_mem ne, ?_⟩
    rw [Option.none_or, h.represents.back_eq, List.getLast?_eq_some_getLast ne]

def visited (c : Sieve) : Nat := c.queue.store.records.total fun r => if r.tag then 1 else 0

theorem visited_le {c : Sieve} {s : List Slot} (h : c.queue.Holds s) :
    c.visited ≤ c.queue.order.length := by
  rw [h.represents.length_eq, h.consistent.sound.length_eq h.represents.nodup h.mem,
    h.consistent.sound.size_eq]
  apply Arena.total_le_total
  intro i r _
  split <;> omega

/-- A sweep ends before it has cleared more marks than there are. -/
theorem settles_sweep {steps : Nat} {c : Sieve} {i : Slot} {r : Record Bool}
    (k : c.queue.Kept fun _ => True) (hr : c.queue.store.get? i = some r)
    (enough : c.visited ≤ steps) :
    Settles t (sweep steps c (some i)) fun p => p.2.Sound ∧
      Evicted (fun _ => True) c.queue p.1 p.2.queue := by
  induction steps using Nat.strongRecOn generalizing c i r with
  | ind steps ih =>
    obtain ⟨s, h⟩ := k.holds
    unfold sweep
    rw [hr, Option.any_some]
    cases marked : r.tag with
    | false =>
      rw [if_neg Bool.false_ne_true]
      refine settles_bind (settles_drop_hand k hr fun j hj => prevOf_apart h hr hj) ?_
      intro q' done
      exact settles_pure ⟨done.1, done.2.1⟩
    | true =>
      rw [if_pos rfl]
      have part := c.queue.store.records.weight_le_total (fun r => if r.tag then 1 else 0) i
      rw [Arena.weight_of_get? hr, marked, if_pos rfl] at part
      unfold visited at enough
      cases steps with
      | zero => omega
      | succ steps =>
        dsimp only
        have paid := Arena.total_modify hr (fun r => { r with tag := false })
          fun r => if r.tag then 1 else 0
        rw [marked, if_pos rfl, if_neg Bool.false_ne_true] at paid
        have cleared := k.modify i (f := fun r => { r with tag := false })
          (fun _ => ⟨rfl, rfl, rfl, rfl⟩) fun _ _ => trivial
        obtain ⟨s', h'⟩ := cleared.holds
        have hi' : i ∈ s' := (h'.mem i).mpr
          ⟨_, (Store.get?_modify ..).trans (by rw [if_pos rfl, hr]; rfl)⟩
        obtain ⟨j, hj, e⟩ := advance_mem (c := ⟨_, c.hand⟩) h' hi'
        obtain ⟨u, hu⟩ := (h'.mem j).mp hj
        rw [e]
        refine (ih steps (Nat.lt_succ_self steps) (c := ⟨_, c.hand⟩) cleared hu ?_).mono ?_
        · dsimp only [visited, Store.modify]
          omega
        · intro p done
          exact ⟨done.1, done.2.of_same rfl fun _ => rfl⟩

theorem Sound.exists_start {c : Sieve} (k : c.Sound) {i : Slot} (e : c.start = some i) :
    ∃ r, c.queue.store.get? i = some r := by
  obtain ⟨s, h⟩ := k.kept.holds
  unfold start at e
  cases hand : c.hand with
  | some j =>
    rw [hand, Option.some_or] at e
    cases e
    exact k.hand i hand
  | none =>
    rw [hand, Option.none_or, h.represents.back_eq] at e
    exact (h.mem i).mp (List.mem_of_getLast? e)

theorem settles_evict {c : Sieve} (k : c.Sound) :
    Settles t c.evict fun p => p.2.Sound ∧ Evicted (fun _ => True) c.queue p.1 p.2.queue := by
  obtain ⟨s, h⟩ := k.kept.holds
  unfold evict
  cases e : c.start with
  | some i =>
    obtain ⟨r, hr⟩ := k.exists_start e
    exact settles_sweep k.kept hr (visited_le h)
  | none =>
    dsimp only
    unfold sweep
    refine settles_pure ⟨k, k.kept, .refl _, fun _ cached => cached, fun some => ?_, nofun⟩
    obtain ⟨i, -, back⟩ := h.back some
    unfold start at e
    rw [back, Option.or_eq_none_iff] at e
    cases e.2

theorem settles_check {c : Sieve} (k : c.Sound) (req : Request) (update : Bool) :
    Settles t (c.check req update) fun p => p.2.Sound ∧
      c.queue.account.SameTerms p.2.queue.account ∧
      (update = true → (p.1 = .hit ↔ p.2.queue.store.caches req.id = true)) := by
  obtain ⟨s, h⟩ := k.kept.holds
  unfold check
  rcases h.lookup req with ⟨e, missing⟩ | ⟨i, r, hr, hid, cached, e | e⟩
  · rw [e]
    exact settles_pure ⟨k, .refl _, fun _ => by simp [missing]⟩
  · rw [e]
    cases update with
    | false => exact settles_pure ⟨k, .refl _, nofun⟩
    | true =>
      refine settles_pure ⟨⟨k.kept.touch i req (f := fun _ => true) fun _ h => h, fun j hj => ?_⟩,
        .refl _, fun _ => ?_⟩
      · obtain ⟨u, hu⟩ := k.hand j hj
        have get := Store.get?_modify c.queue.store i j fun r =>
          { r.touch req c.queue.account.now with tag := true }
        rw [hu] at get
        split at get
        · exact ⟨_, get⟩
        · exact ⟨_, get⟩
      · exact iff_of_true rfl cached
  · rw [e]
    cases update with
    | false => exact settles_pure ⟨k, .refl _, nofun⟩
    | true =>
      refine settles_bind (settles_drop k hr) ?_
      intro c' dropped
      obtain ⟨sound, evicted, caches⟩ := dropped
      refine settles_bind (Account.settles_recordExpired c'.queue.account) ?_
      intro account expired
      obtain ⟨n, rfl⟩ := expired
      obtain ⟨s', h'⟩ := sound.kept.holds
      have terms := evicted.terms
      refine settles_pure ⟨⟨⟨⟨s', h'.recount rfl rfl rfl rfl⟩, sound.kept.tags⟩, sound.hand⟩,
        ⟨terms.capacity, terms.overhead, terms.requests, terms.clock⟩, fun _ => ?_⟩
      show Outcome.expired = .hit ↔ c'.queue.store.caches req.id = true
      simp [caches, hid]

theorem dependable : EvictionPolicy.Dependable t
    (fun (c : Sieve) id => c.queue.store.caches id = true)
    (fun c id => ¬c.queue.store.caches id = true) Sound where
  account_withAccount _ _ := rfl
  begun _ req k := ⟨k.kept.begun req, k.hand⟩
  within _ k := k.kept.within
  evictable _ k some := ⟨k.kept.occupied_pos some, k.kept.occupied_pos some⟩
  check c req update k := by
    refine (settles_check k req update).mono fun p done => ?_
    obtain ⟨kept, terms, hit⟩ := done
    exact ⟨kept, terms, fun u => ⟨(hit u).mp, mt (hit u).mpr⟩⟩
  evict c req k := by
    refine (settles_evict k).mono fun p done => ?_
    obtain ⟨sound, evicted⟩ := done
    exact ⟨sound, evicted.terms, fun id => mt (evicted.shrinks id),
      fun some => evicted.succeeds (k.kept.occupied_pos some), evicted.fewer⟩
  insert c req k free room := by
    obtain ⟨s, h⟩ := k.kept.holds
    refine settles_bind ((h.settles_push free room).and (k.kept.settles_push trivial free room)) ?_
    intro p pushed
    obtain ⟨⟨-, -, -, fresh, other, -⟩, kept, terms, cached⟩ := pushed
    refine settles_pure ⟨⟨kept, fun j hj => ?_⟩, terms, cached⟩
    by_cases e : j = p.1
    · obtain ⟨expiry, hr⟩ := fresh
      obtain ⟨u, hu, -⟩ := Option.map_eq_some_iff.mp hr
      exact ⟨u, e ▸ hu⟩
    · obtain ⟨u, hu⟩ := k.hand j hj
      have same := other j e
      rw [hu] at same
      obtain ⟨v, hv, -⟩ := Option.map_eq_some_iff.mp same
      exact ⟨v, hv⟩
  remove c id k := by
    obtain ⟨s, h⟩ := k.kept.holds
    show Settles t (c.remove id) _
    unfold remove
    cases e : c.queue.store.find? id with
    | none => exact settles_pure k
    | some i =>
      obtain ⟨r, hr, -, -⟩ := (h.consistent.find?_eq_some_iff id i).mp e
      exact settles_bind (settles_drop k hr) fun c' dropped => settles_pure dropped.1
  settle c hit k := settles_pure ⟨k, .refl _, fun _ => Iff.rfl⟩

end Sieve
end CacheReplay
