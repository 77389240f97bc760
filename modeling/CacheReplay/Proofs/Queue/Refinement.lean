import CacheReplay.Proofs.Queue.Headroom
import CacheReplay.Proofs.Queue.Plain

set_option autoImplicit false

namespace CacheReplay

section
variable {α : Type} [DecidableEq α] {β : Type} {s : List α} {es : List β} {f : α → Option β}
  {p : β → Bool} {i : α} (h : s.map f = es.map some)

theorem erase_eq_dropLast {l : List α} (nodup : l.Nodup) (last : l.getLast? = some i) :
    l.erase i = l.dropLast := by
  obtain ⟨init, rfl⟩ := List.getLast?_eq_some_iff.mp last
  rw [Chain.erase_append_cons nodup, List.append_nil, List.dropLast_concat]

include h

/-- Erasing the only handle with some property erases the first such entry. -/
theorem map_erase_eq {e : β} (hi : f i = some e) (he : p e = true)
    (only : ∀ j ∈ s, ∀ d, f j = some d → p d = true → j = i) :
    (s.erase i).map f = (es.eraseP p).map some := by
  induction s generalizing es with
  | nil =>
    cases es with
    | nil => rfl
    | cons d es => cases h
  | cons j s ih =>
    cases es with
    | nil => cases h
    | cons d es =>
      rw [List.map_cons, List.map_cons, List.cons.injEq] at h
      obtain ⟨hd, rest⟩ := h
      by_cases same : j = i
      · subst same
        rw [hi] at hd
        cases hd
        rw [List.erase_cons_head, List.eraseP_cons_of_pos he]
        exact rest
      · have other : p d = false := by
          rw [← Bool.not_eq_true]
          exact fun hp => same (only j List.mem_cons_self d hd hp)
        rw [List.erase_cons_tail (by simpa using same), List.eraseP_cons_of_neg (by simp [other]),
          List.map_cons, List.map_cons, hd, ih rest fun k hk => only k (List.mem_cons_of_mem j hk)]

theorem find?_eq_some_of_map {e : β} (hi : i ∈ s) (hf : f i = some e) (he : p e = true)
    (only : ∀ j ∈ s, ∀ d, f j = some d → p d = true → j = i) : es.find? p = some e := by
  induction s generalizing es with
  | nil => cases hi
  | cons j s ih =>
    cases es with
    | nil => cases h
    | cons d es =>
      rw [List.map_cons, List.map_cons, List.cons.injEq] at h
      obtain ⟨hd, rest⟩ := h
      by_cases same : j = i
      · subst same
        rw [hf] at hd
        cases hd
        rw [List.find?_cons_of_pos he]
      · have other : ¬p d = true := fun hp => same (only j List.mem_cons_self d hd hp)
        rw [List.find?_cons_of_neg other]
        exact ih rest (List.mem_of_ne_of_mem (Ne.symm same) hi) fun k hk =>
          only k (List.mem_cons_of_mem j hk)

end

namespace Record
variable {μ : Type}

def entry (r : Record μ) : Entry := ⟨r.id, r.size, r.expiry⟩

theorem entry_bare (r : Record μ) : (bare r).entry = r.entry := rfl

end Record

namespace ObjectQueue
variable {μ : Type}

def entryAt (q : ObjectQueue μ) (i : Slot) : Option Entry := (q.store.get? i).map Record.entry

theorem entryAt_of_get? {q : ObjectQueue μ} {i : Slot} {r : Record μ} (hr : q.store.get? i = some r) :
    q.entryAt i = some r.entry := by
  rw [entryAt, hr]
  rfl

theorem entryAt_congr {q q' : ObjectQueue μ} {i : Slot}
    (h : (q'.store.get? i).map bare = (q.store.get? i).map bare) : q'.entryAt i = q.entryAt i := by
  have read : ∀ q : ObjectQueue μ, q.entryAt i = ((q.store.get? i).map bare).map Record.entry := by
    intro q
    rw [Option.map_map]
    rfl
  rw [read, read, h]

/-- A queue and a plain one show the same entries and counters. -/
structure Mirrors (q : ObjectQueue μ) (s : List Slot) (m : PlainQueue) : Prop where
  holds : q.Holds s
  entries : s.map q.entryAt = m.entries.map some
  capacity : q.account.capacity = m.capacity
  overhead : q.account.overhead = m.overhead
  expired : q.account.expired = m.expired

namespace Mirrors
variable {t : Tolerance} {q : ObjectQueue μ} {s : List Slot} {m : PlainQueue} (h : q.Mirrors s m)
include h

theorem objects_eq : q.account.objects = m.entries.length := by
  have lengths := congrArg List.length h.entries
  rw [List.length_map, List.length_map] at lengths
  rw [← h.holds.length_eq, lengths]

theorem occupied_eq : q.account.occupied = m.bytes := by
  have weights : s.map (q.store.records.weight (Record.liveBytes q.account.overhead)) =
      m.entries.map fun e => e.size + m.overhead := by
    have sizes := congrArg (List.map fun e : Option Entry => e.elim 0 (·.size + m.overhead)) h.entries
    rw [List.map_map, List.map_map] at sizes
    refine Eq.trans (List.map_congr_left fun i hi => ?_) sizes
    obtain ⟨r, hr, live⟩ := h.holds.exists_get? hi
    rw [Arena.weight_of_get? hr, Function.comp_apply, entryAt_of_get? hr, Record.liveBytes, live,
      h.overhead]
    rfl
  rw [h.holds.balanced.occupied, PlainQueue.bytes, PlainQueue.footprints, ← weights]
  refine (Arena.sum_eq_total h.holds.represents.nodup fun i r hr _ => ?_).symm
  exact (h.holds.mem i).mpr ⟨r, hr⟩

theorem ids_eq : q.ids = m.entries.map (·.id) := by
  have slots : q.slots = s := h.holds.represents.toList_eq
  have ids : q.ids = (s.map q.entryAt).filterMap fun e => e.map (·.id) := by
    rw [ids, slots, List.filterMap_map]
    apply List.filterMap_congr
    intro i _
    rw [Function.comp_apply, entryAt, Option.map_map]
    rfl
  rw [ids, h.entries, List.filterMap_map, ← List.filterMap_eq_map]
  rfl

theorem only {i : Slot} {r : Record μ} (hr : q.store.get? i = some r) :
    ∀ j ∈ s, ∀ e, q.entryAt j = some e → (e.id == r.id) = true → j = i := by
  intro j hj e he same
  obtain ⟨u, hu, live⟩ := h.holds.exists_get? hj
  rw [entryAt_of_get? hu] at he
  cases he
  exact h.holds.consistent.live_unique hu hr live (h.holds.live i r hr) (beq_iff_eq.mp same)

theorem find?_of_none {id : Nat} (missing : q.store.find? id = none) : m.find? id = none := by
  rw [PlainQueue.find?, List.find?_eq_none]
  intro e he same
  have shown : some e ∈ s.map q.entryAt := by
    rw [h.entries]
    exact List.mem_map_of_mem he
  obtain ⟨i, hi, hentry⟩ := List.mem_map.mp shown
  obtain ⟨r, hr, live⟩ := h.holds.exists_get? hi
  rw [entryAt_of_get? hr] at hentry
  cases hentry
  exact (h.holds.consistent.find?_eq_none_iff id).mp missing i r hr live (beq_iff_eq.mp same)

theorem find?_of_get? {i : Slot} {r : Record μ} (hr : q.store.get? i = some r) :
    m.find? r.id = some r.entry :=
  find?_eq_some_of_map h.entries ((h.holds.mem i).mpr ⟨r, hr⟩) (entryAt_of_get? hr)
    (beq_self_eq_true r.id) (h.only hr)

theorem without_of_none {id : Nat} (missing : q.store.find? id = none) : m.without id = m.entries := by
  have none := h.find?_of_none missing
  rw [PlainQueue.find?, List.find?_eq_none] at none
  exact List.eraseP_of_forall_not none

theorem erase {i : Slot} {r : Record μ} (hr : q.store.get? i = some r) (q' : ObjectQueue μ)
    (get : ∀ j, i ≠ j → (q'.store.get? j).map bare = (q.store.get? j).map bare) :
    (s.erase i).map q'.entryAt = (m.without r.id).map some := by
  rw [PlainQueue.without,
    ← map_erase_eq h.entries (entryAt_of_get? hr) (beq_self_eq_true r.id) (h.only hr)]
  apply List.map_congr_left
  intro j hj
  apply entryAt_congr
  exact get j fun e => h.holds.represents.nodup.not_mem_erase (e ▸ hj)

theorem settles_drop {i : Slot} {r : Record μ} (hr : q.store.get? i = some r) :
    Settles t (q.drop i) fun q' => q'.Mirrors (s.erase i) { m with entries := m.without r.id } := by
  apply (h.holds.settles_drop hr).mono
  intro q' dropped
  obtain ⟨holds, account, get, -⟩ := dropped
  constructor
  · exact holds
  · exact h.erase hr q' fun j hij => (get j).trans (if_neg hij)
  · rw [account]
    exact h.capacity
  · rw [account]
    exact h.overhead
  · rw [account]
    exact h.expired

end Mirrors

/-- Some list of handles mirrors the plain queue. -/
def Follows (q : ObjectQueue μ) (m : PlainQueue) : Prop := ∃ s, q.Mirrors s m

theorem follows_empty (capacity overhead : Nat) :
    (empty capacity overhead : ObjectQueue μ).Follows (.empty capacity overhead) :=
  ⟨[], holds_empty capacity overhead, rfl, rfl, rfl, rfl⟩

section
variable {t : Tolerance} {q : ObjectQueue μ} {s : List Slot} {m : PlainQueue}

theorem Follows.recount (h : q.Follows m) {account : Account}
    (capacity : account.capacity = q.account.capacity)
    (overhead : account.overhead = q.account.overhead)
    (occupied : account.occupied = q.account.occupied) (objects : account.objects = q.account.objects)
    (expired : account.expired = q.account.expired) : Follows { q with account } m := by
  obtain ⟨s, h⟩ := h
  exact ⟨s, h.holds.recount capacity overhead occupied objects, h.entries, capacity.trans h.capacity,
    overhead.trans h.overhead, expired.trans h.expired⟩

theorem Follows.settles_dropLast (h : q.Follows m) :
    Settles t q.dropLast fun p => p.1 = m.evict.1 ∧ p.2.Follows m.evict.2 := by
  obtain ⟨s, h⟩ := h
  unfold dropLast
  cases back : q.order.back with
  | none =>
    have nil : s = [] := List.getLast?_eq_none_iff.mp (h.holds.represents.back_eq ▸ back)
    have none : m.entries = [] := by
      have entries := h.entries
      rw [nil] at entries
      exact List.map_eq_nil_iff.mp entries.symm
    refine settles_pure ⟨?_, s, h.holds, ?_, h.capacity, h.overhead, h.expired⟩
    · rw [PlainQueue.evict, none]
      rfl
    · rw [h.entries, PlainQueue.evict, none]
      rfl
  | some i =>
    have last : s.getLast? = some i := h.holds.represents.back_eq ▸ back
    have hi : i ∈ s := List.mem_of_getLast? last
    obtain ⟨r, hr, -⟩ := h.holds.exists_get? hi
    have front := erase_eq_dropLast h.holds.represents.nodup last
    have without : m.without r.id = m.entries.dropLast := by
      have erased := h.erase hr q fun j _ => rfl
      rw [front, List.map_dropLast, h.entries, ← List.map_dropLast] at erased
      exact (List.map_injective_iff.mpr (Option.some_injective _) erased).symm
    apply settles_bind (h.settles_drop hr)
    intro q' dropped
    rw [without] at dropped
    refine settles_pure ⟨?_, _, dropped⟩
    have some : m.entries ≠ [] := by
      intro none
      have entries := h.entries
      rw [none, List.map_nil, List.map_eq_nil_iff] at entries
      rw [entries] at hi
      cases hi
    simpa [PlainQueue.evict] using some

theorem Follows.settles_remove (h : q.Follows m) (id : Nat) :
    Settles t (q.remove id) fun p => p.1 = (m.remove id).1 ∧ p.2.Follows (m.remove id).2 := by
  obtain ⟨s, h⟩ := h
  unfold remove
  cases found : q.store.find? id with
  | none =>
    have missing := h.find?_of_none found
    have same := h.without_of_none found
    refine settles_pure ⟨?_, s, ?_⟩
    · rw [PlainQueue.remove, missing]
      rfl
    · rw [PlainQueue.remove, same]
      exact h
  | some i =>
    obtain ⟨r, hr, rfl, -⟩ := (h.holds.consistent.find?_eq_some_iff id i).mp found
    apply settles_bind (h.settles_drop hr)
    intro q' dropped
    refine settles_pure ⟨?_, _, dropped⟩
    rw [PlainQueue.remove, h.find?_of_get? hr]
    rfl

theorem Mirrors.settles_expire (h : q.Mirrors s m) {i : Slot} {r : Record μ}
    (hr : q.store.get? i = some r) : Settles t (q.expire i) fun q' =>
      q'.Follows { m with entries := m.without r.id, expired := m.expired + 1 } := by
  apply settles_bind (h.settles_drop hr)
  intro q' dropped
  apply settles_bind q'.account.settles_recordExpired_counts
  intro account counted
  subst counted
  apply settles_pure
  refine ⟨s.erase i, dropped.holds.recount rfl rfl rfl rfl, dropped.entries, dropped.capacity,
    dropped.overhead, ?_⟩
  change q'.account.expired + 1 = m.expired + 1
  rw [dropped.expired]

theorem Mirrors.touch (h : q.Mirrors s m) (i : Slot) (req : Request) (f : μ → μ) :
    (q.touch i req f).Mirrors s m where
  holds := h.holds.modify i fun _ => ⟨rfl, rfl, rfl, rfl⟩
  entries := by
    rw [← h.entries]
    apply List.map_congr_left
    intro j _
    rw [entryAt, entryAt, ObjectQueue.touch, Store.get?_modify]
    split
    · rw [Option.map_map]
      rfl
    · rfl
  capacity := h.capacity
  overhead := h.overhead
  expired := h.expired

theorem Mirrors.moveToFront (h : q.Mirrors s m) {i : Slot} {r : Record μ}
    (hr : q.store.get? i = some r) : ∃ q', q.moveToFront i = .ok q' ∧
      q'.Mirrors (i :: s.erase i) { m with entries := r.entry :: m.without r.id } := by
  obtain ⟨order, records, e, holds, same⟩ := h.holds.moveToFront ((h.holds.mem i).mpr ⟨r, hr⟩)
  refine ⟨_, e, holds, ?_, h.capacity, h.overhead, h.expired⟩
  have self : entryAt ⟨q.account, { q.store with records }, order⟩ i = q.entryAt i :=
    entryAt_congr (same i)
  have rest := h.erase hr ⟨q.account, { q.store with records }, order⟩ fun j _ => same j
  rw [List.map_cons, List.map_cons, self, rest, entryAt_of_get? hr]

theorem Follows.settles_check {promote : Bool} (h : q.Follows m) (req : Request) (update : Bool)
    {onHit : ObjectQueue μ → Slot → Checked (ObjectQueue μ)}
    (touch : ∀ s i r, q.Mirrors s m → q.store.get? i = some r → Settles t (onHit q i) fun q' =>
      q'.Follows (if promote then { m with entries := r.entry :: m.without r.id } else m)) :
    Settles t (q.check req update onHit) fun p =>
      ((p.1 = .hit) ↔ (m.check promote req update).1 = true) ∧
        p.2.Follows (m.check promote req update).2 := by
  obtain ⟨s, h⟩ := h
  unfold ObjectQueue.check lookup
  cases found : q.store.find? req.id with
  | none =>
    have missing := h.find?_of_none found
    refine settles_pure ⟨?_, s, ?_⟩
    · simp [PlainQueue.check, missing]
    · simpa [PlainQueue.check, missing] using h
  | some i =>
    obtain ⟨r, hr, hid, -⟩ := (h.holds.consistent.find?_eq_some_iff req.id i).mp found
    have shown := h.find?_of_get? hr
    rw [hid] at shown
    have late : r.entry.expiredAt req.time = r.expiredAt req.time := rfl
    simp only [hr]
    by_cases expired : r.expiredAt req.time = true
    · rw [if_pos expired]
      rw [PlainQueue.check, shown]
      dsimp only
      rw [late, if_pos expired]
      cases update with
      | false => exact settles_pure ⟨by simp, s, h⟩
      | true =>
        apply settles_bind (h.settles_expire hr)
        intro q' gone
        rw [hid] at gone
        exact settles_pure ⟨by simp, gone⟩
    · rw [if_neg expired]
      rw [PlainQueue.check, shown]
      dsimp only
      rw [late, if_neg expired]
      cases update with
      | false => exact settles_pure ⟨by simp, s, h⟩
      | true =>
        apply settles_bind (touch s i r h hr)
        intro q' touched
        rw [hid] at touched
        exact settles_pure ⟨by simp, by simpa using touched⟩

theorem Holds.settles_push_entry (h : q.Holds s) {req : Request} {tag : μ}
    (free : ¬q.store.caches req.id = true) :
    Settles t (q.push req tag) fun p => ∀ r, p.2.store.get? p.1 = some r → r.entry = .ofRequest req := by
  have none : q.store.find? req.id = none := by simpa [Store.caches] using free
  unfold push
  apply settles_bind ((h.consistent.settles_insert q.account.now tag none).and
    (h.consistent.settles_insert_expiry q.account.now tag none))
  intro p stored
  obtain ⟨admits, expires⟩ := stored
  obtain ⟨expiry, hr⟩ := admits.record
  have same := Chain.same_pushFront q.order p.2.records p.1
  apply settles_bind (Account.settles_charge q.account req.size)
  intro account _
  apply settles_pure
  intro r pushed
  obtain ⟨u, hu, hbare⟩ := same.symm.get? pushed
  have late := expires u hu
  cases hr.symm.trans hu
  rw [← Record.entry_bare r, ← hbare, Record.entry_bare, Record.entry, Entry.ofRequest, ← late]

theorem Follows.settles_push (h : q.Follows m) {req : Request} {tag : μ}
    (free : ¬q.store.caches req.id = true)
    (room : q.account.occupied + (req.size + q.account.overhead) ≤ q.account.capacity) :
    Settles t (q.push req tag) fun p => p.2.Follows (m.push req) := by
  obtain ⟨s, h⟩ := h
  apply ((h.holds.settles_push free room).and (h.holds.settles_push_entry free)).mono
  intro p pushed
  obtain ⟨⟨fresh, holds, account, -, other, -⟩, shows⟩ := pushed
  obtain ⟨r, hr⟩ := (holds.mem p.1).mp List.mem_cons_self
  refine ⟨p.1 :: s, holds, ?_, ?_, ?_, ?_⟩
  · have rest : s.map p.2.entryAt = m.entries.map some := by
      rw [← h.entries]
      apply List.map_congr_left
      intro j hj
      exact entryAt_congr (other j fun e => fresh (e ▸ hj))
    rw [List.map_cons, rest, entryAt_of_get? hr, shows r hr]
    rfl
  · rw [account]
    exact h.capacity
  · rw [account]
    exact h.overhead
  · rw [account]
    exact h.expired

end
end ObjectQueue

namespace EvictionPolicy
variable {σ : Type} [EvictionPolicy σ]

def reply (s : σ) : Operation → Checked (Bool × σ)
  | .get req => serve s req
  | .check req update => do
    let (outcome, s) ← check s req update
    pure (decide (outcome = .hit), s)
  | .remove id => remove s id
  | .evict req => evict s req

/-- The answers to some operations, and the cache after them. -/
def replies (s : σ) : List Operation → Checked (List Bool × σ)
  | [] => pure ([], s)
  | op :: ops => do
    let (answer, s) ← reply s op
    let (answers, s) ← replies s ops
    pure (answer :: answers, s)

theorem perform_eq_reply (s : σ) (op : Operation) : perform s op = Prod.snd <$> reply s op := by
  cases op with
  | get req => rfl
  | check req update =>
    rw [perform, reply, map_bind]
    exact map_eq_pure_bind ..
  | remove id => rfl
  | evict req => rfl

theorem run_eq_replies (s : σ) (ops : List Operation) : run s ops = Prod.snd <$> replies s ops := by
  induction ops generalizing s with
  | nil => rfl
  | cons op ops ih =>
    rw [run, List.foldlM_cons, perform_eq_reply, bind_map_left, replies, map_bind]
    apply bind_congr
    intro p
    dsimp only
    rw [map_bind]
    exact (ih p.2).trans (map_eq_pure_bind ..)

/--
A policy does what a plain queue does; `rel` tells which queue a state follows,
and the object that is inserted is absent.
-/
structure Simulates (t : Tolerance) (promote : Bool) (absent : σ → Nat → Prop)
    (rel : σ → PlainQueue → Prop) : Prop where
  capacity : ∀ s m, rel s m → (account s).capacity = m.capacity
  overhead : ∀ s m, rel s m → (account s).overhead = m.overhead
  occupied : ∀ s m, rel s m → (account s).occupied = m.bytes
  objects : ∀ s m, rel s m → (account s).objects = m.entries.length
  evictable : ∀ s m, rel s m → m.entries.length ≤ EvictionPolicy.evictable s
  begun : ∀ s m (req : Request), rel s m → rel (withAccount s ((account s).begun req)) m
  check : ∀ s m (req : Request) (update : Bool), rel s m → Settles t (check s req update) fun p =>
    (p.1 = .hit ↔ (m.check promote req update).1 = true) ∧ rel p.2 (m.check promote req update).2
  evict : ∀ s m (req : Request), rel s m →
    Settles t (evict s req) fun p => p.1 = m.evict.1 ∧ rel p.2 m.evict.2
  insert : ∀ s m (req : Request), rel s m → absent s req.id →
    (account s).occupied + (req.size + (account s).overhead) ≤ (account s).capacity →
    Settles t (insert s req) fun p => rel p.2 (m.push req)
  remove : ∀ s m (id : Nat), rel s m →
    Settles t (remove s id) fun p => p.1 = (m.remove id).1 ∧ rel p.2 (m.remove id).2
  settle : ∀ s m (hit : Bool), rel s m → Settles t (settle s hit) fun s' => rel s' m

namespace Simulates
variable {t : Tolerance} {promote : Bool} {caches absent : σ → Nat → Prop} {sound : σ → Prop}
  {rel : σ → PlainQueue → Prop} (k : Simulates t promote absent rel)
  (d : Dependable t caches absent sound) {s : σ} {m : PlainQueue} {req : Request}
include k

theorem settles_makeRoom_fits {tries : Nat} (h : rel s m)
    (fits : m.bytes + (req.size + m.overhead) ≤ m.capacity) :
    Settles t (makeRoom req tries s) fun p => rel p.2 (m.makeRoom (req.size + m.overhead)) := by
  have room : (account s).occupied + (req.size + (account s).overhead) ≤ (account s).capacity := by
    rw [k.capacity s m h, k.overhead s m h, k.occupied s m h]
    exact fits
  apply (settles_makeRoom_idle tries room).mono
  intro p e
  subst e
  rw [m.makeRoom_of_fits fits]
  exact h

theorem settles_makeRoom {tries : Nat} (h : rel s m) (small : req.size + m.overhead ≤ m.capacity)
    (enough : m.entries.length ≤ tries) :
    Settles t (makeRoom req tries s) fun p => rel p.2 (m.makeRoom (req.size + m.overhead)) := by
  induction tries generalizing s m with
  | zero =>
    have none : m.entries = [] := List.eq_nil_of_length_eq_zero (by omega)
    apply k.settles_makeRoom_fits h
    simpa [PlainQueue.bytes, none, PlainQueue.footprints] using small
  | succ tries ih =>
    by_cases fits : m.bytes + (req.size + m.overhead) ≤ m.capacity
    · exact k.settles_makeRoom_fits h fits
    · have some : m.entries ≠ [] := by
        intro none
        simp [PlainQueue.bytes, none, PlainQueue.footprints] at fits
        omega
      have pos := List.length_pos_of_ne_nil some
      apply settles_makeRoom_evict
      · rw [k.objects s m h]
        exact pos
      · rw [k.capacity s m h, k.overhead s m h, k.occupied s m h]
        omega
      · apply (k.evict s m req h).mono
        intro p evicted
        obtain ⟨done, rest⟩ := evicted
        constructor
        · rw [done]
          simpa [PlainQueue.evict] using some
        · rw [m.makeRoom_of_full (by omega) small]
          apply ih rest small
          change m.entries.dropLast.length ≤ tries
          rw [List.length_dropLast]
          omega

include d

theorem settles_takeIn (hs : sound s) (h : rel s m) (missed : absent s req.id) :
    Settles t (takeIn s req) fun s' => rel s' (m.takeIn req) := by
  unfold takeIn PlainQueue.takeIn
  apply settles_bind ((account s).settles_admits req.size)
  intro fits hfits
  rw [k.capacity s m h, k.overhead s m h] at hfits
  by_cases small : req.size + m.overhead ≤ m.capacity
  · rw [if_pos (hfits.mpr small), if_pos small]
    have fits : req.size + (account s).overhead ≤ (account s).capacity := by
      rw [k.capacity s m h, k.overhead s m h]
      exact small
    apply settles_bind ((d.settles_makeRoom hs fits (Nat.le_refl _)).and
      (k.settles_makeRoom h small (k.evictable s m h)))
    intro p made
    obtain ⟨⟨full, -, -, keeps, room⟩, rest⟩ := made
    dsimp only
    rw [if_pos full]
    apply settles_bind (k.insert p.2 _ req rest (keeps _ missed) room)
    intro q pushed
    exact settles_pure pushed
  · rw [if_neg (mt hfits.mp small), if_neg small]
    exact settles_pure h

theorem settles_answer (hs : sound s) (h : rel s m) :
    Settles t (answer s req) fun p => p.1 = (m.get promote req).1 ∧ rel p.2 (m.get promote req).2 := by
  unfold answer
  apply settles_bind ((account s).settles_begin req)
  intro account e
  subst e
  have begun := d.begun s req hs
  have follows := k.begun s m req h
  generalize withAccount s ((EvictionPolicy.account s).begun req) = b at begun follows ⊢
  unfold respond PlainQueue.get
  apply settles_bind ((d.check b req true begun).and (k.check b m req true follows))
  intro p looked
  obtain ⟨⟨sound, -, known⟩, hit, follows⟩ := looked
  generalize m.check promote req true = look at hit follows ⊢
  have missed : p.1 ≠ .hit → Settles t (do
      let s ← takeIn p.2 req
      pure (false, s)) fun q => q.1 = look.1 ∧
        rel q.2 (if look.1 then look.2 else look.2.takeIn req) := by
    intro no
    have miss : look.1 = false := by
      rw [← Bool.not_eq_true, ← hit]
      exact no
    apply settles_bind (k.settles_takeIn d sound follows ((known rfl).2 no))
    intro s' taken
    rw [miss]
    exact settles_pure ⟨rfl, taken⟩
  obtain ⟨outcome, c⟩ := p
  cases outcome with
  | hit =>
    have found : look.1 = true := hit.mp rfl
    dsimp only
    rw [found]
    exact settles_pure ⟨rfl, follows⟩
  | miss => exact missed nofun
  | expired => exact missed nofun

theorem settles_reply (hs : sound s) (h : rel s m) (op : Operation) :
    Settles t (reply s op) fun p => p.1 = (m.step promote op).1 ∧ rel p.2 (m.step promote op).2 := by
  cases op with
  | get req =>
    rw [reply, serve_eq]
    apply settles_bind (k.settles_answer d hs h)
    intro p answered
    apply settles_bind (k.settle p.2 _ p.1 answered.2)
    intro c settled
    exact settles_pure ⟨answered.1, settled⟩
  | check req update =>
    apply settles_bind (k.check s m req update h)
    intro p looked
    obtain ⟨hit, follows⟩ := looked
    refine settles_pure ⟨?_, follows⟩
    rw [PlainQueue.step, Bool.eq_iff_iff, ← hit, decide_eq_true_eq]
  | remove id => exact k.remove s m id h
  | evict req => exact k.evict s m req h

/-- A policy that simulates a plain queue answers like it all along a run. -/
theorem settles_replies (hs : sound s) (h : rel s m) (ops : List Operation) :
    Settles t (replies s ops) fun p => p.1 = (m.run promote ops).1 ∧ rel p.2 (m.run promote ops).2 := by
  induction ops generalizing s m with
  | nil => exact settles_pure ⟨rfl, h⟩
  | cons op ops ih =>
    have kept : Settles t (reply s op) fun p => sound p.2 := by
      have performed := d.settles_perform s op hs
      rw [perform_eq_reply] at performed
      exact settles_of_map performed
    apply settles_bind ((k.settles_reply d hs h op).and kept)
    intro p replied
    obtain ⟨⟨answer, follows⟩, sound⟩ := replied
    apply settles_bind (ih sound follows)
    intro q rest
    refine settles_pure ⟨?_, rest.2⟩
    rw [PlainQueue.run, answer, rest.1]

end Simulates
end EvictionPolicy

/-- What can be seen of a queue is what a plain queue holds. -/
structure ObjectQueue.Shows {μ : Type} (q : ObjectQueue μ) (m : PlainQueue) : Prop where
  objects : q.account.objects = m.entries.length
  occupied : q.account.occupied = m.bytes
  expired : q.account.expired = m.expired
  ids : q.ids = m.entries.map (·.id)
  entries : q.slots.map q.entryAt = m.entries.map some

theorem ObjectQueue.Follows.shows {μ : Type} {q : ObjectQueue μ} {m : PlainQueue} (h : q.Follows m) :
    q.Shows m := by
  obtain ⟨s, h⟩ := h
  refine ⟨h.objects_eq, h.occupied_eq, h.expired, h.ids_eq, ?_⟩
  rw [show q.slots = s from h.holds.represents.toList_eq]
  exact h.entries

open EvictionPolicy ObjectQueue

theorem EvictionPolicy.Queued.simulates {σ : Type} [EvictionPolicy σ] {t : Tolerance} {promote : Bool}
    {queue : σ → ObjectQueue Unit}
    {onHit : Request → ObjectQueue Unit → Slot → Checked (ObjectQueue Unit)}
    (k : Queued queue () onHit)
    (touch : ∀ req q m s i r, q.Mirrors s m → q.store.get? i = some r →
      Settles t (onHit req q i) fun q' =>
        q'.Follows (if promote then { m with entries := r.entry :: m.without r.id } else m)) :
    Simulates t promote (fun s id => ¬(queue s).store.caches id = true)
      fun s m => (queue s).Follows m where
  capacity s m h := by
    obtain ⟨l, h⟩ := h
    rw [k.account_eq]
    exact h.capacity
  overhead s m h := by
    obtain ⟨l, h⟩ := h
    rw [k.account_eq]
    exact h.overhead
  occupied s m h := by
    rw [k.account_eq]
    exact h.shows.occupied
  objects s m h := by
    rw [k.account_eq]
    exact h.shows.objects
  evictable s m h := by
    rw [k.evictable_eq, h.shows.objects]
  begun s m req h := by
    rw [k.queue_withAccount, k.account_eq]
    exact h.recount rfl rfl rfl rfl rfl
  check s m req update h := by
    have looked := h.settles_check req update fun l i r => touch req (queue s) m l i r
    rw [← k.check_eq] at looked
    exact settles_of_map looked
  evict s m req h := by
    have evicted := h.settles_dropLast (t := t)
    rw [← k.evict_eq s req] at evicted
    exact settles_of_map evicted
  insert s m req h free room := by
    rw [k.account_eq] at room
    have pushed : Settles t ((queue s).push req ()) fun p => p.2.Follows (m.push req) :=
      h.settles_push free room
    rw [← k.insert_eq] at pushed
    have inserted := settles_of_map pushed
    exact inserted
  remove s m id h := by
    have removed := h.settles_remove (t := t) id
    rw [← k.remove_eq] at removed
    exact settles_of_map removed
  settle s m hit h := by
    rw [k.settle_eq]
    exact settles_pure h

theorem Fifo.simulates {t : Tolerance} : Simulates t false
    (fun (c : Fifo) id => ¬c.queue.store.caches id = true) fun c m => c.queue.Follows m := by
  apply queued.simulates
  intro req q m s i r h _
  exact settles_pure ⟨s, h.touch i req id⟩

theorem Lru.simulates {t : Tolerance} : Simulates t true
    (fun (c : Lru) id => ¬c.queue.store.caches id = true) fun c m => c.queue.Follows m := by
  apply queued.simulates
  intro req q m s i r h hr
  have touched : (q.touch i req id).store.get? i =
      some { r.touch req q.account.now with tag := id r.tag } := by
    rw [ObjectQueue.touch, Store.get?_modify, if_pos rfl, hr]
    rfl
  obtain ⟨q', e, moved⟩ := (h.touch i req id).moveToFront touched
  rw [e]
  exact ⟨_, moved⟩

theorem Fifo.settles_replies {t : Tolerance} (capacity overhead : Nat) (ops : List Operation) :
    Settles t (replies (Fifo.empty capacity overhead) ops) fun p =>
      p.1 = ((PlainQueue.empty capacity overhead).run false ops).1 ∧
        p.2.queue.Shows ((PlainQueue.empty capacity overhead).run false ops).2 := by
  apply (Fifo.simulates.settles_replies Fifo.dependable (kept_empty _ capacity overhead)
    (follows_empty capacity overhead) ops).mono
  intro p replied
  exact ⟨replied.1, replied.2.shows⟩

theorem Lru.settles_replies {t : Tolerance} (capacity overhead : Nat) (ops : List Operation) :
    Settles t (replies (Lru.empty capacity overhead) ops) fun p =>
      p.1 = ((PlainQueue.empty capacity overhead).run true ops).1 ∧
        p.2.queue.Shows ((PlainQueue.empty capacity overhead).run true ops).2 := by
  apply (Lru.simulates.settles_replies Lru.dependable (kept_empty _ capacity overhead)
    (follows_empty capacity overhead) ops).mono
  intro p replied
  exact ⟨replied.1, replied.2.shows⟩

theorem exists_replies {σ : Type} [EvictionPolicy σ] {s : σ} {ops : List Operation}
    (answers : ∃ s', run s ops = .ok s') : ∃ p, replies s ops = .ok p := by
  obtain ⟨s', e⟩ := answers
  rw [run_eq_replies] at e
  cases h : replies s ops with
  | error fault =>
    rw [h] at e
    cases e
  | ok p => exact ⟨p, rfl⟩

/--
First in, first out and least recently used answer like a plain queue and show
what it holds, whatever is asked of them; a run whose sums stay in range has all
its answers.
-/
theorem replies_mirror (capacity overhead : Nat) (ops : List Operation) :
    (Settles .arithmetic (replies (Fifo.empty capacity overhead) ops) fun p =>
      p.1 = ((PlainQueue.empty capacity overhead).run false ops).1 ∧
        p.2.queue.Shows ((PlainQueue.empty capacity overhead).run false ops).2) ∧
    (Settles .arithmetic (replies (Lru.empty capacity overhead) ops) fun p =>
      p.1 = ((PlainQueue.empty capacity overhead).run true ops).1 ∧
        p.2.queue.Shows ((PlainQueue.empty capacity overhead).run true ops).2) ∧
    (IsWord (ops.map (Operation.cost overhead)).sum → (∀ op ∈ ops, op.Timely) →
      (∃ p, replies (Fifo.empty capacity overhead) ops = .ok p) ∧
        ∃ p, replies (Lru.empty capacity overhead) ops = .ok p) := by
  refine ⟨Fifo.settles_replies capacity overhead ops, Lru.settles_replies capacity overhead ops, ?_⟩
  intro room timely
  exact ⟨exists_replies (Fifo.exists_run room timely), exists_replies (Lru.exists_run room timely)⟩

theorem replies_mirror_expiring : ∃ p, replies (Lru.empty 5 1) [.get (.ofId 1 1 0),
      .get ⟨2, 0, 0, none, some 3⟩, .get (.ofId 1 9 1), .get (.ofId 3 1 2), .get ⟨2, 1, 7, none, none⟩] =
        .ok p ∧
    p.1 = [false, false, true, false, false] ∧ p.2.queue.ids = [2, 3] ∧ p.2.queue.account.expired = 1 := by
  have both : ∀ ops, (∃ p, replies (Lru.empty 5 1) ops = .ok p) →
      ∃ p, replies (Lru.empty 5 1) ops = .ok p ∧ p.1 = ((PlainQueue.empty 5 1).run true ops).1 ∧
        p.2.queue.Shows ((PlainQueue.empty 5 1).run true ops).2 := by
    intro ops answers
    obtain ⟨p, e⟩ := answers
    have mirrored := (replies_mirror 5 1 ops).2.1
    rw [e] at mirrored
    exact ⟨p, e, mirrored⟩
  have answers := ((replies_mirror 5 1 [.get (.ofId 1 1 0), .get ⟨2, 0, 0, none, some 3⟩,
    .get (.ofId 1 9 1), .get (.ofId 3 1 2), .get ⟨2, 1, 7, none, none⟩]).2.2 (by decide)
      (by simp [Operation.Timely, Request.Timely, IsTime, timeBound, Request.ofId])).2
  obtain ⟨p, e, hits, shown⟩ := both _ answers
  exact ⟨p, e, hits, shown.ids, shown.expired⟩

end CacheReplay
