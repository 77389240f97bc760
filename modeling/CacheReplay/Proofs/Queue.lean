import CacheReplay.Policy.Queue
import CacheReplay.Proofs.Run

set_option autoImplicit false

namespace CacheReplay

namespace ObjectQueue
variable {μ : Type}

structure Holds (q : ObjectQueue μ) (s : List Slot) : Prop where
  consistent : q.store.Consistent
  represents : q.order.Represents q.store.records s
  mem : ∀ i, i ∈ s ↔ ∃ r, q.store.get? i = some r
  live : ∀ i r, q.store.get? i = some r → r.ghost = false
  balanced : q.account.Balanced q.store
  within : q.account.occupied ≤ q.account.capacity

theorem holds_empty (capacity overhead : Nat) : (empty capacity overhead : ObjectQueue μ).Holds [] where
  consistent := Store.consistent_empty
  represents := Chain.represents_empty _
  mem i := by simp [empty, Store.empty, Store.get?, Arena.get?_empty]
  live i r h := by simp [empty, Store.empty, Store.get?, Arena.get?_empty] at h
  balanced := Account.balanced_empty capacity overhead
  within := Nat.zero_le _

namespace Holds
variable {t : Tolerance} {q : ObjectQueue μ} {s : List Slot} (h : q.Holds s)
include h

theorem exists_get? {i : Slot} (hi : i ∈ s) : ∃ r, q.store.get? i = some r ∧ r.ghost = false := by
  obtain ⟨r, hr⟩ := (h.mem i).mp hi
  exact ⟨r, hr, h.live i r hr⟩

theorem back (some : 0 < q.account.objects) : ∃ i ∈ s, q.order.back = .some i := by
  obtain ⟨i, r, hr, -⟩ := h.balanced.exists_live some
  have hi : i ∈ s := (h.mem i).mpr ⟨r, hr⟩
  have ne : s ≠ [] := List.ne_nil_of_mem hi
  exact ⟨s.getLast ne, List.getLast_mem ne, by rw [h.represents.back_eq, List.getLast?_eq_some_getLast ne]⟩

theorem length_eq : s.length = q.account.objects := by
  have count := h.consistent.sound.length_eq h.represents.nodup h.mem
  have unit : q.store.records.total (Record.unit false) = q.store.records.total fun _ => 1 := by
    apply Arena.total_congr
    intro i
    cases hr : q.store.records.get? i with
    | none => rw [Arena.weight_of_none hr, Arena.weight_of_none hr]
    | some r =>
      rw [Arena.weight_of_get? hr, Arena.weight_of_get? hr, Record.unit, if_pos (h.live i r hr)]
  rw [count, h.consistent.sound.size_eq, h.balanced.objects, unit]

theorem occupied_pos (some : 0 < q.account.occupied) : 0 < q.account.objects := by
  by_contra none
  have := h.balanced.occupied_eq_zero (Nat.eq_zero_of_not_pos none)
  omega

theorem same {order : Chain} {records : Arena (Record μ)} {s' : List Slot}
    (sound : records.Sound) (rep : order.Represents records s') (perm : ∀ i, i ∈ s' ↔ i ∈ s)
    (same : q.store.records.Same (fun r => (r.id, r.size, r.ghost)) records) :
    Holds ⟨q.account, { q.store with records }, order⟩ s' where
  consistent := h.consistent.same sound (same.of_comp (fun e => (e.1, e.2.2)) fun _ => rfl)
  represents := rep
  mem i := by
    rw [perm, h.mem]
    exact (same.exists_get?_iff i).symm
  live i r hr := by
    obtain ⟨u, hu, e⟩ := same.symm.get? hr
    simp only [Prod.mk.injEq] at e
    rw [← e.2.2]
    exact h.live i u hu
  balanced := h.balanced.keep fun j =>
    Store.liveSize?_same (same.of_comp (fun e => e.2) fun _ => rfl) j
  within := h.within

theorem settles_drop {i : Slot} {r : Record μ} (hr : q.store.get? i = some r) :
    Settles t (q.drop i) fun q' => q'.Holds (s.erase i) ∧
      q'.account = q.account.released r.size ∧
      (∀ j, (q'.store.get? j).map bare = if i = j then none else (q.store.get? j).map bare) ∧
      ∀ id, q'.store.caches id = true ↔ q.store.caches id = true ∧ id ≠ r.id := by
  have hi : i ∈ s := (h.mem i).mpr ⟨r, hr⟩
  obtain ⟨order, records, e, rep, rel⟩ := h.represents.unlink hi
  obtain ⟨u, hu, hbare⟩ := rel.same.get? hr
  obtain ⟨l, rfl⟩ := Record.exists_links_of_bare hbare
  have live := h.live i r hr
  have balanced : q.account.Balanced { q.store with records } := h.balanced.keep fun j =>
    Store.liveSize?_same (rel.same.of_comp (fun r => (r.size, r.ghost)) fun _ => rfl) j
  have liveSize := Store.liveSize?_of_live (s := { q.store with records }) hu live
  have consistent := h.consistent.relinked rel
  have off := consistent.liveSize?_without (i := i) hu
  obtain ⟨kept, get⟩ := consistent.without (i := i) hu
  have caches := consistent.caches_without (i := i) hu live
  unfold drop
  dsimp only
  rw [e]
  refine settles_ok_bind ?_
  rw [consistent.delete_eq]
  refine settles_ok_bind ?_
  rw [show Store.get? { q.store with records } i = _ from hu]
  generalize Store.without { q.store with records } i = store at kept get off caches ⊢
  refine settles_bind (balanced.settles_release liveSize) ?_
  intro account released
  subst released
  have get' : ∀ j, (store.get? j).map bare = if i = j then none else (q.store.get? j).map bare := by
    intro j
    rw [get]
    split
    · rfl
    · exact rel.same j
  refine settles_pure ⟨⟨kept, ?_, fun j => ?_, fun j v hv => ?_, balanced.released liveSize off, ?_⟩,
    rfl, get', caches⟩
  · refine rep.congr fun j hj => ?_
    have hij : i ≠ j := fun e => h.represents.nodup.not_mem_erase (e ▸ hj)
    have same := get j
    rw [if_neg hij] at same
    exact congrArg (Option.map Linked.links) same
  · rw [h.represents.nodup.mem_erase_iff, h.mem]
    constructor
    · intro both
      obtain ⟨hij, v, hv⟩ := both
      have same := get' j
      rw [if_neg (Ne.symm hij), hv] at same
      obtain ⟨w, hw, -⟩ := Option.map_eq_some_iff.mp same
      exact ⟨w, hw⟩
    · intro found
      obtain ⟨v, hv⟩ := found
      obtain ⟨apart, w, hw, -⟩ := Store.exists_of_dropped get' hv
      exact ⟨Ne.symm apart, w, hw⟩
  · obtain ⟨-, w, hw, -, ghost⟩ := Store.exists_of_dropped get' hv
    rw [← ghost]
    exact h.live j w hw
  · exact Nat.le_trans (Nat.sub_le _ _) h.within

theorem settles_push {req : Request} {tag : μ} (free : ¬q.store.caches req.id = true)
    (room : q.account.occupied + (req.size + q.account.overhead) ≤ q.account.capacity) :
    Settles t (q.push req tag) fun p => p.1 ∉ s ∧ p.2.Holds (p.1 :: s) ∧
      p.2.account = q.account.charged req.size ∧
      (∃ expiry, (p.2.store.get? p.1).map bare = some ⟨req.id, req.size, req.time, req.time,
        q.account.now, req.next, expiry, .detached, false, tag⟩) ∧
      (∀ j, j ≠ p.1 → (p.2.store.get? j).map bare = (q.store.get? j).map bare) ∧
      p.2.store.caches req.id = true := by
  have none : q.store.find? req.id = none := by simpa [Store.caches] using free
  unfold push
  dsimp only
  refine settles_bind (h.consistent.settles_insert q.account.now tag none) ?_
  intro p admits
  obtain ⟨i, store⟩ := p
  dsimp only at admits ⊢
  have fresh : i ∉ s := by
    intro hi
    obtain ⟨r, hr⟩ := (h.mem i).mp hi
    rw [admits.free] at hr
    cases hr
  obtain ⟨expiry, hr⟩ := admits.record
  have present : store.records.contains i = true := by
    rw [Arena.contains, show store.records.get? i = _ from hr]
    rfl
  have rep := h.represents.congr (b := store.records) fun j hj => by
    have hji : j ≠ i := fun e => fresh (e ▸ hj)
    exact congrArg (Option.map Linked.links) (admits.other j hji)
  have rel := Chain.relinked_pushFront (i := i) rep
  have rep' := rep.pushFront fresh present
  generalize q.order.pushFront store.records i = placed at rel rep' ⊢
  obtain ⟨order, records⟩ := placed
  dsimp only at rel rep' ⊢
  refine settles_bind (Account.settles_charge q.account req.size) ?_
  intro account charged
  obtain ⟨rfl, word⟩ := charged
  have liveSize : q.store.liveSize? i = .none := Store.liveSize?_of_none admits.free
  have consistent := admits.consistent.relinked rel
  have bares : ∀ j, (Store.get? { store with records } j).map bare = (store.get? j).map bare :=
    fun j => rel.same j
  have cached := (admits.consistent.caches_iff req.id).mpr ⟨i, _, hr, rfl, rfl⟩
  refine settles_pure ⟨fresh, ⟨consistent, rep', ?_, ?_, ?_, room⟩, rfl, ?_, ?_, cached⟩
  · intro j
    rw [show (∃ r, Store.get? { store with records } j = some r) ↔ ∃ r, store.get? j = some r from
      rel.same.exists_get?_iff j, List.mem_cons, h.mem]
    by_cases e : j = i
    · subst e
      simp [hr]
    · simp [e, admits.other j e]
  · intro j u hu
    obtain ⟨v, hv, -, ghost⟩ := Store.exists_of_same_bare rel.same hu
    rw [← ghost]
    by_cases e : j = i
    · subst e
      rw [show store.records.get? j = _ from hr] at hv
      cases hv
      rfl
    · exact h.live j v ((admits.other j e).symm.trans hv)
  · refine (h.balanced.charged liveSize admits.liveSize? word).keep fun j => ?_
    exact Store.liveSize?_same (rel.same.of_comp (fun r => (r.size, r.ghost)) fun _ => rfl) j
  · exact ⟨expiry, by rw [bares, hr]; rfl⟩
  · intro j hj
    rw [bares, admits.other j hj]

theorem recount {account : Account} (capacity : account.capacity = q.account.capacity)
    (overhead : account.overhead = q.account.overhead)
    (occupied : account.occupied = q.account.occupied)
    (objects : account.objects = q.account.objects) : Holds { q with account } s where
  consistent := h.consistent
  represents := h.represents
  mem := h.mem
  live := h.live
  balanced := ⟨objects.trans h.balanced.objects, by
    rw [occupied, overhead]
    exact h.balanced.occupied, by
    rw [occupied]
    exact h.balanced.word⟩
  within := by
    rw [occupied, capacity]
    exact h.within

theorem modify (i : Slot) {f : Record μ → Record μ}
    (hf : ∀ r, (f r).id = r.id ∧ (f r).size = r.size ∧ (f r).ghost = r.ghost ∧ (f r).links = r.links) :
    Holds { q with store := q.store.modify i f } s := by
  have all : q.store.records.Same (fun r => (r.id, r.size, r.ghost, r.links))
      (q.store.records.modify i f) := by
    refine Arena.same_modify _ _ fun r _ => ?_
    obtain ⟨hid, hsize, hghost, hlinks⟩ := hf r
    rw [hid, hsize, hghost, hlinks]
  refine h.same (h.consistent.sound.modify i f) ?_ (fun _ => Iff.rfl)
    (all.of_comp (fun e => (e.1, e.2.1, e.2.2.1)) fun _ => rfl)
  refine h.represents.congr fun j _ => ?_
  exact all.of_comp (g := Linked.links) (fun e => e.2.2.2) (fun _ => rfl) j

theorem moveToFront {i : Slot} (hi : i ∈ s) : ∃ order records,
    q.moveToFront i = .ok ⟨q.account, { q.store with records }, order⟩ ∧
    Holds ⟨q.account, { q.store with records }, order⟩ (i :: s.erase i) ∧
    q.store.records.Same bare records := by
  obtain ⟨order, records, e, rep, rel⟩ := h.represents.moveToFront hi
  refine ⟨order, records, ?_, ?_, rel.same⟩
  · unfold ObjectQueue.moveToFront
    dsimp only
    rw [e]
    rfl
  · refine h.same (rel.sound h.consistent.sound) rep (fun j => ?_)
      (rel.same.of_comp (fun r => (r.id, r.size, r.ghost)) fun _ => rfl)
    rw [List.mem_cons, h.represents.nodup.mem_erase_iff]
    constructor
    · intro either
      rcases either with rfl | both
      · exact hi
      · exact both.2
    · intro hj
      by_cases e : j = i
      · exact .inl e
      · exact .inr ⟨e, hj⟩

end Holds

theorem Holds.lookup {q : ObjectQueue μ} {s : List Slot} (h : q.Holds s) (req : Request) :
    (q.lookup req = .missing ∧ ¬q.store.caches req.id = true) ∨
      ∃ i r, q.store.get? i = some r ∧ r.id = req.id ∧ q.store.caches req.id = true ∧
        (q.lookup req = .found i ∨ q.lookup req = .expired i) := by
  unfold ObjectQueue.lookup
  cases e : q.store.find? req.id with
  | none => exact .inl ⟨rfl, by simp [Store.caches, e]⟩
  | some i =>
    obtain ⟨r, hr, hid, -⟩ := (h.consistent.find?_eq_some_iff req.id i).mp e
    refine .inr ⟨i, r, hr, hid, by simp [Store.caches, e], ?_⟩
    simp only [hr]
    by_cases late : r.expiredAt req.time = true
    · exact .inr (if_pos late)
    · exact .inl (if_neg late)

section
variable {t : Tolerance} {q : ObjectQueue μ} {s : List Slot}

theorem Holds.settles_expire (h : q.Holds s) {i : Slot} {r : Record μ} (hr : q.store.get? i = some r) :
    Settles t (q.expire i) fun q' => q'.Holds (s.erase i) ∧ q.account.SameTerms q'.account ∧
      (∀ j, (q'.store.get? j).map bare = if i = j then none else (q.store.get? j).map bare) ∧
      ∀ id, q'.store.caches id = true ↔ q.store.caches id = true ∧ id ≠ r.id := by
  refine settles_bind (h.settles_drop hr) ?_
  intro q' dropped
  obtain ⟨h', account, get, caches⟩ := dropped
  refine settles_bind (Account.settles_recordExpired q'.account) ?_
  intro account' expired
  obtain ⟨n, rfl⟩ := expired
  have terms : q.account.SameTerms q'.account := by
    rw [account]
    exact Account.sameTerms_released _ _
  exact settles_pure ⟨h'.recount rfl rfl rfl rfl,
    ⟨terms.capacity, terms.overhead, terms.requests, terms.clock⟩, get, caches⟩

end

structure Kept (good : μ → Prop) (q : ObjectQueue μ) : Prop where
  holds : ∃ s, q.Holds s
  tags : ∀ i r, q.store.get? i = some r → good r.tag

theorem kept_empty (good : μ → Prop) (capacity overhead : Nat) :
    (empty capacity overhead : ObjectQueue μ).Kept good where
  holds := ⟨[], holds_empty capacity overhead⟩
  tags i r hr := by simp [empty, Store.empty, Store.get?, Arena.get?_empty] at hr

/-- What an eviction from a queue answers. -/
structure Evicted (good : μ → Prop) (q : ObjectQueue μ) (done : Bool) (q' : ObjectQueue μ) : Prop where
  kept : q'.Kept good
  terms : q.account.SameTerms q'.account
  shrinks : ∀ id, q'.store.caches id = true → q.store.caches id = true
  succeeds : 0 < q.account.objects → done = true
  fewer : done = true → q'.account.objects < q.account.objects

theorem Evicted.of_same {good : μ → Prop} {q p q' : ObjectQueue μ} {done : Bool}
    (e : Evicted good p done q') (account : p.account = q.account)
    (caches : ∀ id, p.store.caches id = q.store.caches id) : Evicted good q done q' where
  kept := e.kept
  terms := account ▸ e.terms
  shrinks id h := caches id ▸ e.shrinks id h
  succeeds := account ▸ e.succeeds
  fewer := account ▸ e.fewer

namespace Kept
variable {t : Tolerance} {good : μ → Prop} {q : ObjectQueue μ} (k : q.Kept good)
include k

theorem within : q.account.occupied ≤ q.account.capacity := by
  obtain ⟨s, h⟩ := k.holds
  exact h.within

theorem occupied_pos (some : 0 < q.account.occupied) : 0 < q.account.objects := by
  obtain ⟨s, h⟩ := k.holds
  exact h.occupied_pos some

theorem begun (req : Request) : Kept good { q with account := q.account.begun req } := by
  obtain ⟨s, h⟩ := k.holds
  exact ⟨⟨s, h.recount rfl rfl rfl rfl⟩, k.tags⟩

theorem of_bare {q' : ObjectQueue μ} {s' : List Slot} (h : q'.Holds s')
    (sub : ∀ j r', q'.store.get? j = some r' → ∃ r, q.store.get? j = some r ∧ bare r = bare r') :
    q'.Kept good := by
  refine ⟨⟨s', h⟩, fun j r' hr' => ?_⟩
  obtain ⟨r, hr, e⟩ := sub j r' hr'
  have tag : r.tag = r'.tag := Record.tag_eq_of_bare e
  rw [← tag]
  exact k.tags j r hr

theorem of_erased {q' : ObjectQueue μ} {s' : List Slot} {i : Slot} (h : q'.Holds s')
    (get : ∀ j, (q'.store.get? j).map bare = if i = j then none else (q.store.get? j).map bare) :
    q'.Kept good := by
  refine k.of_bare h fun j r' hr' => ?_
  have e := get j
  rw [hr'] at e
  split at e
  · cases e
  · obtain ⟨r, hr, hbare⟩ := Option.map_eq_some_iff.mp e.symm
    exact ⟨r, hr, hbare⟩

theorem settles_drop {i : Slot} {r : Record μ} (hr : q.store.get? i = some r) :
    Settles t (q.drop i) fun q' => Evicted good q true q' := by
  obtain ⟨s, h⟩ := k.holds
  refine (h.settles_drop hr).mono fun q' dropped => ?_
  obtain ⟨h', account, get, caches⟩ := dropped
  have covers := h.balanced.covers (Store.liveSize?_of_live hr (h.live i r hr))
  refine ⟨k.of_erased h' get, ?_, fun id c => ((caches id).mp c).1, fun _ => rfl, fun _ => ?_⟩
  · rw [account]
    exact Account.sameTerms_released _ _
  · rw [account]
    show q.account.objects - 1 < q.account.objects
    omega

theorem settles_dropLast : Settles t q.dropLast fun p => Evicted good q p.1 p.2 := by
  obtain ⟨s, h⟩ := k.holds
  unfold dropLast
  cases e : q.order.back with
  | none =>
    refine settles_pure ⟨k, .refl _, fun _ c => c, fun some => ?_, nofun⟩
    obtain ⟨i, -, back⟩ := h.back some
    rw [e] at back
    cases back
  | some i =>
    have hi : i ∈ s := List.mem_of_getLast? (h.represents.back_eq ▸ e)
    obtain ⟨r, hr, -⟩ := h.exists_get? hi
    exact settles_bind (k.settles_drop hr) fun q' evicted => settles_pure evicted

theorem settles_remove (id : Nat) : Settles t (q.remove id) fun p => p.2.Kept good := by
  obtain ⟨s, h⟩ := k.holds
  unfold remove
  cases e : q.store.find? id with
  | none => exact settles_pure k
  | some i =>
    obtain ⟨r, hr, -, -⟩ := (h.consistent.find?_eq_some_iff id i).mp e
    exact settles_bind (k.settles_drop hr) fun q' evicted => settles_pure evicted.kept

theorem settles_push {req : Request} {tag : μ} (fine : good tag) (free : ¬q.store.caches req.id = true)
    (room : q.account.occupied + (req.size + q.account.overhead) ≤ q.account.capacity) :
    Settles t (q.push req tag) fun p => p.2.Kept good ∧ q.account.SameTerms p.2.account ∧
      p.2.store.caches req.id = true := by
  obtain ⟨s, h⟩ := k.holds
  refine (h.settles_push free room).mono fun p pushed => ?_
  obtain ⟨-, h', account, ⟨expiry, fresh⟩, other, cached⟩ := pushed
  refine ⟨⟨⟨_, h'⟩, fun j r hr => ?_⟩, ?_, cached⟩
  · by_cases e : j = p.1
    · rw [e] at hr
      rw [hr] at fresh
      have tag : r.tag = tag := congrArg Record.tag (Option.some.inj fresh)
      rw [tag]
      exact fine
    · have same := other j e
      rw [hr] at same
      obtain ⟨u, hu, hbare⟩ := Option.map_eq_some_iff.mp same.symm
      have tag : u.tag = r.tag := Record.tag_eq_of_bare hbare
      rw [← tag]
      exact k.tags j u hu
  · rw [account]
    exact Account.sameTerms_charged _ _

theorem modify (i : Slot) {f : Record μ → Record μ}
    (hf : ∀ r, (f r).id = r.id ∧ (f r).size = r.size ∧ (f r).ghost = r.ghost ∧ (f r).links = r.links)
    (fine : ∀ r, q.store.get? i = some r → good (f r).tag) :
    Kept good { q with store := q.store.modify i f } := by
  obtain ⟨s, h⟩ := k.holds
  refine ⟨⟨s, h.modify i hf⟩, fun j r hr => ?_⟩
  rw [Store.get?_modify] at hr
  split at hr
  · rename_i e
    subst e
    obtain ⟨u, hu, rfl⟩ := Option.map_eq_some_iff.mp hr
    exact fine u hu
  · exact k.tags j r hr

theorem touch (i : Slot) (req : Request) {f : μ → μ} (fine : ∀ tag, good tag → good (f tag)) :
    (q.touch i req f).Kept good :=
  k.modify i (fun _ => ⟨rfl, rfl, rfl, rfl⟩) fun r hr => fine _ (k.tags i r hr)

theorem moveToFront {s : List Slot} (h : q.Holds s) {i : Slot} (hi : i ∈ s) :
    ∃ order records, q.moveToFront i = .ok ⟨q.account, { q.store with records }, order⟩ ∧
      Kept good ⟨q.account, { q.store with records }, order⟩ ∧ q.store.records.Same bare records := by
  obtain ⟨order, records, e, h', same⟩ := h.moveToFront hi
  exact ⟨order, records, e, k.of_bare h' fun j r' hr' => same.symm.get? hr', same⟩

/-- A look-up keeps what the policy's own bookkeeping of a hit keeps. -/
theorem settles_check {req : Request} {update : Bool}
    {onHit : ObjectQueue μ → Slot → Checked (ObjectQueue μ)}
    (touch : ∀ i r, q.store.get? i = some r → Settles t (onHit q i) fun q' => q'.Kept good ∧
      q'.account = q.account ∧ q'.store.caches req.id = q.store.caches req.id) :
    Settles t (q.check req update onHit) fun p => p.2.Kept good ∧
      q.account.SameTerms p.2.account ∧
      (update = true → (p.1 = .hit ↔ p.2.store.caches req.id = true)) := by
  obtain ⟨s, h⟩ := k.holds
  unfold ObjectQueue.check
  rcases h.lookup req with ⟨e, missing⟩ | ⟨i, r, hr, hid, cached, e | e⟩
  · rw [e]
    exact settles_pure ⟨k, .refl _, fun _ => by simp [missing]⟩
  · rw [e]
    cases update with
    | false => exact settles_pure ⟨k, .refl _, nofun⟩
    | true =>
      refine settles_bind (touch i r hr) fun q' done => ?_
      obtain ⟨kept, account, caches⟩ := done
      refine settles_pure ⟨kept, ?_, fun _ => by simp [caches, cached]⟩
      rw [account]
      exact .refl _
  · rw [e]
    cases update with
    | false => exact settles_pure ⟨k, .refl _, nofun⟩
    | true =>
      refine settles_bind (h.settles_expire hr) ?_
      intro q' done
      obtain ⟨h', terms, get, caches⟩ := done
      exact settles_pure ⟨k.of_erased h' get, terms, fun _ => by simp [caches, hid]⟩

end Kept
end ObjectQueue
end CacheReplay
