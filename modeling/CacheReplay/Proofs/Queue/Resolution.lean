import CacheReplay.Proofs.Queue.Overdraft

set_option autoImplicit false

namespace CacheReplay
open EvictionPolicy

namespace ObjectQueue
variable {μ : Type} {t : Tolerance} {q : ObjectQueue μ} {s : List Slot}

def besides (q : ObjectQueue μ) (id : Nat) : Nat :=
  q.account.occupied - (q.store.stored id).elim 0 (· + q.account.overhead)

/-- An object is not cached, and the others are left alone. -/
structure Cleared (q : ObjectQueue μ) (id : Nat) (q' : ObjectQueue μ) : Prop where
  stored : q'.store.stored = Function.update q.store.stored id none
  occupied : q'.account.occupied = q.besides id

theorem stored_of_missing {id : Nat} (missing : ¬q.store.caches id = true) :
    q.store.stored id = none := by
  unfold Store.caches at missing
  rw [Store.stored, Store.findRecord?, Option.not_isSome_iff_eq_none.mp missing]
  rfl

theorem cleared_of_missing {id : Nat} (missing : ¬q.store.caches id = true) : q.Cleared id q := by
  have none := stored_of_missing missing
  constructor
  · rw [← none, Function.update_eq_self]
  · rw [besides, none]
    rfl

theorem Holds.stored_eq_some_iff (h : q.Holds s) (id n : Nat) :
    q.store.stored id = some n ↔ ∃ i r, q.store.get? i = some r ∧ r.id = id ∧ r.size = n := by
  rw [h.consistent.stored_eq_some_iff]
  constructor
  · rintro ⟨i, r, alive, same⟩
    exact ⟨i, r, ((q.store.live?_eq_some_iff i r).mp alive).1, same⟩
  · rintro ⟨i, r, hr, same⟩
    exact ⟨i, r, (q.store.live?_eq_some_iff i r).mpr ⟨hr, h.live i r hr⟩, same⟩

theorem Holds.settles_drop_cleared (h : q.Holds s) {i : Slot} {r : Record μ}
    (hr : q.store.get? i = some r) : Settles t (q.drop i) fun q' => q.Cleared r.id q' := by
  apply (h.settles_drop hr).mono
  intro q' dropped
  obtain ⟨h', account, get, caches⟩ := dropped
  constructor
  · funext id
    by_cases same : id = r.id
    · rw [same, Function.update_self]
      exact stored_of_missing fun still => ((caches r.id).mp still).2 rfl
    · rw [Function.update_of_ne same]
      apply Option.ext
      intro n
      rw [h.stored_eq_some_iff, h'.stored_eq_some_iff]
      constructor
      · rintro ⟨j, u, hu, hid, size⟩
        have e := get j
        rw [hu] at e
        split at e
        · cases e
        · obtain ⟨v, hv, hbare⟩ := Option.map_eq_some_iff.mp e.symm
          exact ⟨j, v, hv, (congrArg Record.id hbare).trans hid, (congrArg Record.size hbare).trans size⟩
      · rintro ⟨j, u, hu, hid, size⟩
        have apart : i ≠ j := by
          rintro rfl
          rw [hr] at hu
          cases hu
          exact same hid.symm
        have e := get j
        rw [if_neg apart, hu] at e
        obtain ⟨v, hv, hbare⟩ := Option.map_eq_some_iff.mp e
        exact ⟨j, v, hv, (congrArg Record.id hbare).trans hid, (congrArg Record.size hbare).trans size⟩
  · have size := (h.stored_eq_some_iff r.id r.size).mpr ⟨i, r, hr, rfl, rfl⟩
    rw [account, besides, size]
    rfl

theorem Holds.settles_expire_cleared (h : q.Holds s) {i : Slot} {r : Record μ}
    (hr : q.store.get? i = some r) : Settles t (q.expire i) fun q' => q.Cleared r.id q' := by
  apply settles_bind (h.settles_drop_cleared hr)
  intro q' cleared
  apply settles_bind (Account.settles_recordExpired q'.account)
  intro account expired
  obtain ⟨n, rfl⟩ := expired
  exact settles_pure ⟨cleared.stored, cleared.occupied⟩

theorem Holds.settles_check_cleared (h : q.Holds s) (req : Request)
    {onHit : ObjectQueue μ → Slot → Checked (ObjectQueue μ)} :
    Settles .any (q.check req true onHit) fun p => p.1 ≠ .hit → q.Cleared req.id p.2 := by
  unfold check
  rcases h.lookup req with ⟨e, missing⟩ | ⟨i, r, hr, hid, -, e | e⟩
  · rw [e]
    exact settles_pure fun _ => cleared_of_missing missing
  · rw [e]
    apply settles_bind (settles_any (onHit q i))
    intro q' _
    exact settles_pure fun miss => absurd rfl miss
  · rw [e]
    apply settles_bind (h.settles_expire_cleared hr)
    intro q' cleared
    rw [hid] at cleared
    exact settles_pure fun _ => cleared

theorem Holds.settles_push_stored (h : q.Holds s) {req : Request} {tag : μ}
    (free : ¬q.store.caches req.id = true)
    (room : q.account.occupied + (req.size + q.account.overhead) ≤ q.account.capacity) :
    Settles t (q.push req tag) fun p => p.2.store.stored req.id = some req.size := by
  apply (h.settles_push free room).mono
  intro p pushed
  obtain ⟨-, h', -, ⟨expiry, fresh⟩, -⟩ := pushed
  obtain ⟨r, hr, hbare⟩ := Option.map_eq_some_iff.mp fresh
  exact (h'.stored_eq_some_iff req.id req.size).mpr
    ⟨p.1, r, hr, congrArg Record.id hbare, congrArg Record.size hbare⟩

theorem push_overflow {req : Request} (tag : μ) (free : ¬q.store.caches req.id = true)
    (late : ¬req.Timely) : q.push req tag = .error .overflow := by
  have none : q.store.find? req.id = none := by simpa [Store.caches] using free
  rw [push]
  dsimp only
  rw [Store.insert_overflow q.account.now tag none late]
  rfl

theorem Holds.yields_check_cleared (h : q.Holds s) (req : Request) (count : IsWord q.account.tally)
    {onHit : ObjectQueue μ → Slot → Checked (ObjectQueue μ)}
    (touch : ∀ i r, q.store.get? i = some r → Yields (onHit q i) fun q' => q'.account = q.account) :
    Yields (q.check req true onHit) fun p =>
      q.account.Sheds p.2.account ∧ (p.1 ≠ .hit → q.Cleared req.id p.2) :=
  (h.yields_check req true count touch).and (h.settles_check_cleared req)

theorem Holds.yields_push_stored (h : q.Holds s) {req : Request} (tag : μ)
    (free : ¬q.store.caches req.id = true)
    (room : q.account.occupied + (req.size + q.account.overhead) ≤ q.account.capacity)
    (timely : req.Timely) (word : IsWord (q.account.occupied + (req.size + q.account.overhead)))
    (count : IsWord (q.account.objects + 1)) : Yields (q.push req tag) fun p =>
      p.2.account = q.account.charged req.size ∧ p.2.store.stored req.id = some req.size :=
  (yields_push free word count timely).and (h.settles_push_stored (t := .any) free room)

end ObjectQueue

theorem error_of_map {α β : Type} {f : α → β} {x : Checked α} {fault : Fault}
    (e : f <$> x = .error fault) : x = .error fault := by
  cases x with
  | error other =>
    cases e
    rfl
  | ok a => cases e

theorem EvictionPolicy.Queued.exact {σ μ : Type} [EvictionPolicy σ] {queue : σ → ObjectQueue μ} {tag : μ}
    {onHit : Request → ObjectQueue μ → Slot → Checked (ObjectQueue μ)} (k : Queued queue tag onHit)
    {sound : σ → Prop} (kept : ∀ s, sound s → (queue s).Kept fun _ => True)
    (touch : ∀ req q s i r, q.Holds s → q.store.get? i = some r →
      Yields (onHit req q i) fun q' => q'.account = q.account) :
    Exact (fun s => (queue s).store.stored) (fun _ => 0) (fun s id => ¬(queue s).store.caches id = true)
      sound where
  debt_withAccount _ _ := rfl
  check s req hs count := by
    obtain ⟨l, h⟩ := (kept s hs).holds
    rw [k.account_eq] at count ⊢
    have looked := h.yields_check_cleared req count fun i r hr => touch req _ l i r h hr
    apply (Yields.of_map (k.check_eq s req true) looked).mono
    intro p done
    rw [besides, k.account_eq, k.account_eq]
    exact ⟨done.1, Nat.zero_le _, fun miss => ⟨(done.2 miss).stored, (done.2 miss).occupied⟩⟩
  evict s req hs _ := by
    obtain ⟨l, h⟩ := (kept s hs).holds
    apply (Yields.of_map (k.evict_eq s req) h.yields_dropLast).mono
    intro p shed
    rw [k.account_eq, k.account_eq]
    exact ⟨shed, Nat.le_refl _⟩
  insert s req hs free room timely word count := by
    obtain ⟨l, h⟩ := (kept s hs).holds
    rw [k.account_eq] at room word count ⊢
    apply (Yields.of_map (k.insert_eq s req) (h.yields_push_stored tag free room timely word count)).mono
    intro p pushed
    rw [k.account_eq]
    exact ⟨pushed.1, pushed.2, Nat.le_refl _⟩
  insert_overflow s req _ free late :=
    error_of_map ((k.insert_eq s req).trans (ObjectQueue.push_overflow tag free late))
  settle := k.settle_eq

theorem Fifo.exact : Exact (fun c : Fifo => c.queue.store.stored) (fun _ => 0)
    (fun c id => ¬c.queue.store.caches id = true) fun c => c.queue.Kept fun _ => True := by
  apply queued.exact fun _ h => h
  intro req q s i r _ _
  exact yields_pure rfl

theorem Lru.exact : Exact (fun c : Lru => c.queue.store.stored) (fun _ => 0)
    (fun c id => ¬c.queue.store.caches id = true) fun c => c.queue.Kept fun _ => True := by
  apply queued.exact fun _ h => h
  intro req q s i r h hr
  exact yields_onHit h hr req

namespace Clock

/-- All counters, and how often one was lowered. -/
def debt (c : Clock) : Nat := c.reinserted + c.queue.store.records.total (·.tag)

theorem weight_tag_of_bare {a b : Arena (Record Nat)} {i : Slot}
    (same : (b.get? i).map bare = (a.get? i).map bare) : b.weight (·.tag) i = a.weight (·.tag) i := by
  have tags := congrArg (Option.elim · 0 (·.tag)) same
  rwa [Option.elim_map, Option.elim_map] at tags

section
variable {q : ObjectQueue Nat} {s : List Slot} (h : q.Holds s)
include h

theorem settles_drop_total {i : Slot} {r : Record Nat} (hr : q.store.get? i = some r) :
    Settles .any (q.drop i) fun q' =>
      q'.store.records.total (·.tag) ≤ q.store.records.total (·.tag) := by
  apply (h.settles_drop hr).mono
  intro q' dropped
  obtain ⟨-, -, get, -⟩ := dropped
  have apart : ∀ j, j ≠ i → q'.store.records.weight (·.tag) j = q.store.records.weight (·.tag) j := by
    intro j hj
    have same := get j
    rw [if_neg (Ne.symm hj)] at same
    exact weight_tag_of_bare same
  have gone : q'.store.records.weight (·.tag) i = 0 := by
    have none := get i
    rw [if_pos rfl, Option.map_eq_none_iff] at none
    exact Arena.weight_of_none none _
  have exchanged := Arena.total_exchange_weight apart
  omega

theorem settles_expire_total {i : Slot} {r : Record Nat} (hr : q.store.get? i = some r) :
    Settles .any (q.expire i) fun q' =>
      q'.store.records.total (·.tag) ≤ q.store.records.total (·.tag) := by
  apply settles_bind (settles_drop_total h hr)
  intro q' less
  apply settles_bind (settles_any q'.account.recordExpired)
  intro account _
  exact settles_pure less

theorem settles_push_total {req : Request} (free : ¬q.store.caches req.id = true)
    (room : q.account.occupied + (req.size + q.account.overhead) ≤ q.account.capacity) :
    Settles .any (q.push req 0) fun p =>
      p.2.store.records.total (·.tag) ≤ q.store.records.total (·.tag) := by
  apply (h.settles_push free room).mono
  intro p pushed
  obtain ⟨-, -, -, ⟨expiry, fresh⟩, other, -⟩ := pushed
  have zero : p.2.store.records.weight (·.tag) p.1 = 0 := by
    have tags := congrArg (Option.elim · 0 (·.tag)) fresh
    rwa [Option.elim_map] at tags
  have exchanged := Arena.total_exchange_weight fun j hj => weight_tag_of_bare (other j hj)
  omega

theorem settles_check_total (req : Request) (limit : Nat) :
    Settles .any (q.check req true fun q i => pure (q.touch i req fun n => min (n + 1) limit)) fun p =>
      p.2.store.records.total (·.tag) ≤ q.store.records.total (·.tag) + 1 := by
  unfold ObjectQueue.check
  rcases h.lookup req with ⟨e, -⟩ | ⟨i, r, hr, -, -, e | e⟩
  · rw [e]
    exact settles_pure (Nat.le_add_right ..)
  · rw [e]
    apply settles_pure
    have raised : (q.touch i req fun n => min (n + 1) limit).store.records.total (·.tag) + r.tag =
        q.store.records.total (·.tag) + min (r.tag + 1) limit := Arena.total_modify hr _ _
    have less : min (r.tag + 1) limit ≤ r.tag + 1 := Nat.min_le_left ..
    dsimp only
    omega
  · rw [e]
    apply settles_bind (settles_expire_total h hr)
    intro q' less
    exact settles_pure (Nat.le_add_right_of_le less)

end

/-- A scan does not fail, since each step lowers a counter. -/
theorem yields_scan {steps : Nat} {c : Clock} (k : c.Sound) (word : IsWord c.debt) :
    Yields (scan steps c) fun p => c.queue.account.Sheds p.2.queue.account ∧ p.2.debt ≤ c.debt := by
  induction steps using Nat.strongRecOn generalizing c with
  | ind steps ih =>
    obtain ⟨s, h⟩ := k.holds
    unfold scan
    cases back : c.queue.order.back with
    | none => exact yields_pure ⟨.refl _, Nat.le_refl _⟩
    | some i =>
      have hi : i ∈ s := List.mem_of_getLast? (h.represents.back_eq ▸ back)
      obtain ⟨r, hr, -⟩ := h.exists_get? hi
      simp only [hr, Option.elim_some]
      cases count : r.tag with
      | zero =>
        apply yields_bind ((h.yields_drop hr).and (settles_drop_total h hr))
        intro q' dropped
        apply yields_pure
        rw [dropped.1]
        exact ⟨c.queue.account.sheds_released r.size, Nat.add_le_add_left dropped.2 _⟩
      | succ n =>
        cases steps with
        | zero => exact yields_pure ⟨.refl _, Nat.le_refl _⟩
        | succ steps =>
          dsimp only
          -- The counter of the object at the back pays for the step.
          have paid := Arena.total_modify hr (fun r => { r with tag := n }) (·.tag)
          have part := c.queue.store.records.weight_le_total (·.tag) i
          rw [Arena.weight_of_get? hr] at part
          have limit := k.tags i r hr
          have lowered := k.modify i (f := fun r => { r with tag := n })
            (fun _ => ⟨rfl, rfl, rfl, rfl⟩) fun _ _ => show n ≤ c.maxCount by omega
          obtain ⟨s', h'⟩ := lowered.holds
          have hi' : i ∈ s' := (h'.mem i).mpr
            ⟨_, (Store.get?_modify ..).trans (by rw [if_pos rfl, hr]; rfl)⟩
          obtain ⟨order, records, e, moved, same⟩ := lowered.moveToFront h' hi'
          have total := same.total (w := (·.tag)) (·.tag) fun _ => rfl
          unfold debt at word
          rw [e, ok_bind, addWord_of_isWord (word.of_le (by omega)), ok_bind]
          have owed : debt ⟨⟨c.queue.account, { c.queue.store with records }, order⟩, c.maxCount,
              c.reinserted + 1⟩ ≤ c.debt := by
            change c.reinserted + 1 + records.total (·.tag) ≤ _
            rw [total]
            dsimp only [debt, Store.modify] at paid ⊢
            omega
          have rest := ih steps (Nat.lt_succ_self steps) (c := ⟨_, c.maxCount, c.reinserted + 1⟩) moved
            (word.of_le owed)
          apply rest.mono
          intro p done
          exact ⟨done.1, Nat.le_trans done.2 owed⟩

theorem rest_of_withBits {capacity overhead bits : Nat} {c : Clock}
    (accepted : withBits capacity overhead bits = .ok c) : Rest debt Sound c := by
  have sound := sound_of_withBits accepted
  unfold withBits at accepted
  split at accepted
  · cases accepted
    exact ⟨sound, Nat.le_refl 0, Nat.le_refl 0, (by decide : IsWord 0)⟩
  · cases accepted

theorem exact : Exact (fun c : Clock => c.queue.store.stored) debt
    (fun c id => ¬c.queue.store.caches id = true) Sound where
  debt_withAccount _ _ := rfl
  check c req k count := by
    obtain ⟨s, h⟩ := k.holds
    have touch : ∀ i r, c.queue.store.get? i = some r →
        Yields (pure (c.queue.touch i req fun n => min (n + 1) c.maxCount) : Checked _)
          fun q => q.account = c.queue.account := fun _ _ _ => yields_pure rfl
    apply yields_bind ((h.yields_check_cleared req count touch).and (settles_check_total h req c.maxCount))
    intro p done
    obtain ⟨⟨shed, cleared⟩, raised⟩ := done
    exact yields_pure ⟨shed, Nat.add_le_add_left raised _,
      fun miss => ⟨(cleared miss).stored, (cleared miss).occupied⟩⟩
  evict c req k word := yields_scan k word
  insert c req k free room timely word count := by
    obtain ⟨s, h⟩ := k.holds
    have placed := (h.yields_push_stored 0 free room timely word count).and
      (settles_push_total h free room)
    apply yields_bind placed
    intro p pushed
    exact yields_pure ⟨pushed.1.1, pushed.1.2, Nat.add_le_add_left pushed.2 _⟩
  insert_overflow c req _ free late :=
    congrArg (· >>= fun p => pure (p.1, ({ c with queue := p.2 } : Clock)))
      (ObjectQueue.push_overflow 0 free late)
  settle _ _ := rfl

end Clock

namespace Sieve

theorem yields_sweep {steps : Nat} {c : Sieve} {i : Slot} {r : Record Bool}
    (k : c.queue.Kept fun _ => True) (hr : c.queue.store.get? i = some r) :
    Yields (sweep steps c (some i)) fun p => c.queue.account.Sheds p.2.queue.account := by
  induction steps using Nat.strongRecOn generalizing c i r with
  | ind steps ih =>
    obtain ⟨s, h⟩ := k.holds
    unfold sweep
    rw [hr, Option.any_some]
    cases marked : r.tag with
    | false =>
      rw [if_neg Bool.false_ne_true]
      apply yields_bind (h.yields_drop hr)
      intro q' account
      apply yields_pure
      rw [account]
      exact c.queue.account.sheds_released r.size
    | true =>
      rw [if_pos rfl]
      cases steps with
      | zero => exact yields_pure (.refl _)
      | succ steps =>
        dsimp only
        have cleared := k.modify i (f := fun r => { r with tag := false })
          (fun _ => ⟨rfl, rfl, rfl, rfl⟩) fun _ _ => trivial
        obtain ⟨s', h'⟩ := cleared.holds
        have hi' : i ∈ s' := (h'.mem i).mpr
          ⟨_, (Store.get?_modify ..).trans (by rw [if_pos rfl, hr]; rfl)⟩
        obtain ⟨j, hj, e⟩ := advance_mem (c := ⟨_, c.hand⟩) h' hi'
        obtain ⟨u, hu⟩ := (h'.mem j).mp hj
        rw [e]
        exact ih steps (Nat.lt_succ_self steps) (c := ⟨_, c.hand⟩) cleared hu

theorem yields_evict {c : Sieve} (k : c.Sound) :
    Yields c.evict fun p => c.queue.account.Sheds p.2.queue.account := by
  unfold evict
  cases e : c.start with
  | some i =>
    obtain ⟨r, hr⟩ := k.exists_start e
    exact yields_sweep k.kept hr
  | none =>
    dsimp only
    unfold sweep
    exact yields_pure (.refl _)

theorem yields_check {c : Sieve} (k : c.Sound) (req : Request) (count : IsWord c.queue.account.tally) :
    Yields (c.check req true) fun p => c.queue.account.Sheds p.2.queue.account ∧
      (p.1 ≠ .hit → c.queue.Cleared req.id p.2.queue) := by
  obtain ⟨s, h⟩ := k.kept.holds
  unfold check
  rcases h.lookup req with ⟨e, missing⟩ | ⟨i, r, hr, hid, -, e | e⟩
  · rw [e]
    exact yields_pure ⟨.refl _, fun _ => ObjectQueue.cleared_of_missing missing⟩
  · rw [e]
    exact yields_pure ⟨.refl _, fun miss => absurd rfl miss⟩
  · rw [e]
    -- An expired object is dropped as by the queue itself; the hand moves off it first.
    have dropped : Yields (c.drop i) fun c' => c'.queue.account = c.queue.account.released r.size ∧
        c.queue.Cleared r.id c'.queue := by
      apply yields_bind ((h.yields_drop hr).and (h.settles_drop_cleared (t := .any) hr))
      intro q' done
      exact yields_pure done
    apply yields_bind dropped
    intro c' done
    obtain ⟨account, cleared⟩ := done
    have covers := h.balanced.covers (Store.liveSize?_of_live hr (h.live i r hr))
    unfold Account.tally at count
    have word : IsWord (c'.queue.account.expired + 1) := by
      rw [account]
      apply count.of_le
      change c.queue.account.expired + 1 ≤ _
      omega
    rw [Account.recordExpired_of_isWord word]
    rw [hid] at cleared
    refine yields_pure ⟨?_, fun _ => ⟨cleared.stored, cleared.occupied⟩⟩
    dsimp only
    rw [account]
    exact Account.sheds_expired r.size covers.2

theorem exact : Exact (fun c : Sieve => c.queue.store.stored) (fun _ => 0)
    (fun c id => ¬c.queue.store.caches id = true) Sound where
  debt_withAccount _ _ := rfl
  check c req k count := by
    apply (yields_check k req count).mono
    intro p looked
    exact ⟨looked.1, Nat.zero_le _, fun miss => ⟨(looked.2 miss).stored, (looked.2 miss).occupied⟩⟩
  evict c req k _ := (yields_evict k).mono fun p shed => ⟨shed, Nat.le_refl _⟩
  insert c req k free room timely word count := by
    obtain ⟨s, h⟩ := k.kept.holds
    apply yields_bind (h.yields_push_stored false free room timely word count)
    intro p pushed
    exact yields_pure ⟨pushed.1, pushed.2, Nat.le_refl _⟩
  insert_overflow c req _ free late :=
    congrArg (· >>= fun p => pure (p.1, ({ c with queue := p.2 } : Sieve)))
      (ObjectQueue.push_overflow false free late)
  settle _ _ := rfl

end Sieve

namespace AnyCache
open Regression
variable {μ : Type} [Regressor μ]

theorem resolves_of_exact {σ : Type} [EvictionPolicy σ] {t : Tolerance} {wrap : σ → AnyCache μ}
    {kept : σ → Nat → Option Nat} {debt : σ → Nat} {cached absent : σ → Nat → Prop} {good : σ → Prop}
    (wraps : Wraps wrap) (policy : Dependable t cached absent good) (foretells : Foretells t kept good)
    (exact : Exact kept debt absent good) (sizes : ∀ s, (wrap s).stored = kept s) {s : σ}
    (rest : Rest debt good s) {reqs : List Request} {d : AnyCache μ}
    (reached : run (wrap s) (reqs.map .get) = .ok d) (req : Request) : Resolves stored d req := by
  rw [wraps.run] at reached
  cases e : run s (reqs.map .get) with
  | error fault =>
    rw [e] at reached
    cases reached
  | ok s' =>
    rw [e] at reached
    cases reached
    have resting := exact.rest_of_run policy foretells rest e
    exact (exact.resolves policy foretells resting req).wrapped wraps sizes

/--
Whatever requests a cache of one of the queue policies has served, the next one
overflows exactly when it is overdrawn. Otherwise a hit moves nothing, an object
that can never fit is rejected as a miss that leaves the others alone, and any
other missed object is admitted within the capacity.
-/
theorem run_resolves {c : AnyCache μ} (fresh : c.Fresh)
    (queue : c.kind ∈ [PolicyKind.fifo, .lru, .clock, .sieve]) {reqs : List Request} {d : AnyCache μ}
    (reached : run c (reqs.map .get) = .ok d) (req : Request) : Resolves stored d req := by
  have zero : IsWord 0 := by decide
  cases fresh with
  | fifo capacity overhead =>
    exact resolves_of_exact (wraps_of_passes (fun _ _ => rfl) (fun _ _ => rfl) fun _ _ => rfl)
      (t := .any) Fifo.dependable Fifo.foretells Fifo.exact (fun _ => rfl)
      ⟨ObjectQueue.kept_empty _ capacity overhead, Nat.le_refl 0, Nat.le_refl 0, zero⟩ reached req
  | lru capacity overhead =>
    exact resolves_of_exact (wraps_of_passes (fun _ _ => rfl) (fun _ _ => rfl) fun _ _ => rfl)
      (t := .any) Lru.dependable Lru.foretells Lru.exact (fun _ => rfl)
      ⟨ObjectQueue.kept_empty _ capacity overhead, Nat.le_refl 0, Nat.le_refl 0, zero⟩ reached req
  | clock _ _ _ accepted =>
    exact resolves_of_exact (wraps_of_passes (fun _ _ => rfl) (fun _ _ => rfl) fun _ _ => rfl)
      (t := .any) Clock.dependable Clock.foretells Clock.exact (fun _ => rfl)
      (Clock.rest_of_withBits accepted) reached req
  | sieve capacity overhead =>
    exact resolves_of_exact (wraps_of_passes (fun _ _ => rfl) (fun _ _ => rfl) fun _ _ => rfl)
      (t := .any) Sieve.dependable Sieve.foretells Sieve.exact (fun _ => rfl)
      ⟨Sieve.sound_empty capacity overhead, Nat.le_refl 0, Nat.le_refl 0, zero⟩ reached req
  | arc capacity overhead => simp [kind] at queue
  | glcache capacity overhead model accepted => simp [kind] at queue

theorem run_resolves_full : ∃ d : AnyCache Boosted,
    run (.fifo (.empty 10 1)) ([.ofId 1 4 0, .ofId 2 5 1, .ofId 1 4 2].map .get) = .ok d ∧
      ∀ req, Resolves stored d req := by
  have wraps : Wraps (AnyCache.fifo : Fifo → AnyCache Boosted) :=
    wraps_of_passes (fun _ _ => rfl) (fun _ _ => rfl) fun _ _ => rfl
  have room : IsWord ((([Request.ofId 1 4 0, .ofId 2 5 1, .ofId 1 4 2].map .get).map
      (Operation.cost 1)).sum) := by decide
  have forever : ∀ req ∈ [Request.ofId 1 4 0, .ofId 2 5 1, .ofId 1 4 2], req.ttl = none := by decide
  have timely := Operation.timely_of_units forever
  obtain ⟨s, e⟩ : ∃ s, run (Fifo.empty 10 1) _ = .ok s := Fifo.exists_run room timely
  have reached := (wraps.run (.empty 10 1) _).trans (congrArg _ e)
  exact ⟨_, reached, run_resolves (.fifo 10 1) (by decide) reached⟩

/-- A footprint is added up before it is compared with the capacity. -/
theorem serve_oversized : 10 < (wordBound - 1) + 1 ∧
    serve (.fifo (.empty 10 1) : AnyCache Boosted) (.ofId 1 (wordBound - 1) 0) = .error .overflow := by
  have rest : Rest (fun _ => 0) (fun c : Fifo => c.queue.Kept fun _ => True) (.empty 10 1) :=
    ⟨ObjectQueue.kept_empty _ 10 1, Nat.le_refl 0, Nat.le_refl 0, (by decide : IsWord 0)⟩
  have miss : outlook (Fifo.empty 10 1) (.ofId 1 (wordBound - 1) 0) = .miss := by
    have missing : (ObjectQueue.empty 10 1 : ObjectQueue Unit).lookup (.ofId 1 (wordBound - 1) 0) =
        .missing := by
      simp [ObjectQueue.lookup, ObjectQueue.empty, Store.empty, Store.find?]
    apply outlook_of_check
    change Fifo.check (Fifo.empty 10 1) _ false = _
    rw [Fifo.check, Fifo.empty, ObjectQueue.peek, missing]
    rfl
  have wraps : Wraps (AnyCache.fifo : Fifo → AnyCache Boosted) :=
    wraps_of_passes (fun _ _ => rfl) (fun _ _ => rfl) fun _ _ => rfl
  have drawn : Overdrawn (fun c : Fifo => c.queue.store.stored) (.empty 10 1)
      (.ofId 1 (wordBound - 1) 0) := by
    right
    exact ⟨by rw [miss]; decide, .inl (by decide)⟩
  refine ⟨by decide, ?_⟩
  rw [wraps.serve]
  rcases Fifo.exact.resolves (t := .any) Fifo.dependable Fifo.foretells rest (.ofId 1 (wordBound - 1) 0) with
    ⟨-, failed⟩ | ⟨fine, -⟩
  · rw [failed]
    rfl
  · exact absurd drawn fine

end AnyCache
end CacheReplay
