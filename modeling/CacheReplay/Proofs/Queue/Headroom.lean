import CacheReplay.Proofs.Headroom
import CacheReplay.Proofs.QueuePolicies

set_option autoImplicit false

namespace CacheReplay

structure Account.Sheds (a b : Account) : Prop where
  tally : b.tally ≤ a.tally
  occupied : b.occupied ≤ a.occupied
  terms : a.SameTerms b

namespace Account

theorem Sheds.refl (a : Account) : a.Sheds a := ⟨Nat.le_refl _, Nat.le_refl _, .refl a⟩

theorem sheds_released (a : Account) (size : Nat) : a.Sheds (a.released size) where
  tally := by
    change a.objects - 1 + a.expired ≤ a.objects + a.expired
    omega
  occupied := Nat.sub_le ..
  terms := sameTerms_released a size

theorem sheds_expired {a : Account} (size : Nat) (some : 0 < a.objects) :
    a.Sheds { a.released size with expired := a.expired + 1 } where
  tally := by
    change a.objects - 1 + (a.expired + 1) ≤ a.objects + a.expired
    omega
  occupied := Nat.sub_le ..
  terms := ⟨rfl, rfl, rfl, rfl⟩

end Account

namespace ObjectQueue
variable {μ : Type} {q : ObjectQueue μ} {s : List Slot}

theorem Holds.yields_drop (h : q.Holds s) {i : Slot} {r : Record μ} (hr : q.store.get? i = some r) :
    Yields (q.drop i) fun q' => q'.account = q.account.released r.size := by
  obtain ⟨order, records, e, rep, rel⟩ := h.represents.unlink ((h.mem i).mpr ⟨r, hr⟩)
  obtain ⟨u, hu, hbare⟩ := rel.same.get? hr
  obtain ⟨l, rfl⟩ := Record.exists_links_of_bare hbare
  have release := h.balanced.release_eq (Store.liveSize?_of_live hr (h.live i r hr))
  have consistent := h.consistent.relinked rel
  unfold drop
  dsimp only
  rw [e, ok_bind, consistent.delete_eq, ok_bind]
  dsimp only
  rw [show Store.get? { q.store with records } i = _ from hu]
  dsimp only
  rw [release]
  exact yields_pure rfl

theorem Holds.yields_expire (h : q.Holds s) {i : Slot} {r : Record μ} (hr : q.store.get? i = some r)
    (count : IsWord q.account.tally) : Yields (q.expire i) fun q' => q.account.Sheds q'.account := by
  have covers := h.balanced.covers (Store.liveSize?_of_live hr (h.live i r hr))
  unfold Account.tally at count
  apply yields_bind (h.yields_drop hr)
  intro q' account
  have word : IsWord (q'.account.expired + 1) := by
    rw [account]
    apply count.of_le
    change q.account.expired + 1 ≤ _
    omega
  rw [Account.recordExpired_of_isWord word, account]
  exact yields_pure (Account.sheds_expired r.size covers.2)

theorem Holds.yields_dropLast (h : q.Holds s) :
    Yields q.dropLast fun p => q.account.Sheds p.2.account := by
  unfold dropLast
  cases back : q.order.back with
  | none => exact yields_pure (.refl _)
  | some i =>
    have hi : i ∈ s := List.mem_of_getLast? (h.represents.back_eq ▸ back)
    obtain ⟨r, hr, -⟩ := h.exists_get? hi
    apply yields_bind (h.yields_drop hr)
    intro q' account
    apply yields_pure
    rw [account]
    exact q.account.sheds_released r.size

theorem Holds.yields_remove (h : q.Holds s) (id : Nat) :
    Yields (q.remove id) fun p => q.account.Sheds p.2.account := by
  unfold remove
  cases found : q.store.find? id with
  | none => exact yields_pure (.refl _)
  | some i =>
    obtain ⟨r, hr, -, -⟩ := (h.consistent.find?_eq_some_iff id i).mp found
    apply yields_bind (h.yields_drop hr)
    intro q' account
    apply yields_pure
    rw [account]
    exact q.account.sheds_released r.size

theorem yields_push {req : Request} {tag : μ} (free : ¬q.store.caches req.id = true)
    (word : IsWord (q.account.occupied + (req.size + q.account.overhead)))
    (count : IsWord (q.account.objects + 1)) (timely : req.Timely) :
    Yields (q.push req tag) fun p => p.2.account = q.account.charged req.size := by
  have none : q.store.find? req.id = none := by simpa [Store.caches] using free
  obtain ⟨p, hp⟩ := Store.exists_insert q.account.now tag none timely
  unfold push
  dsimp only
  rw [hp, ok_bind, Account.charge_of_isWord word count]
  exact yields_pure rfl

theorem Holds.yields_check (h : q.Holds s) (req : Request) (update : Bool)
    (count : IsWord q.account.tally) {onHit : ObjectQueue μ → Slot → Checked (ObjectQueue μ)}
    (touch : ∀ i r, q.store.get? i = some r → Yields (onHit q i) fun q' => q'.account = q.account) :
    Yields (q.check req update onHit) fun p => q.account.Sheds p.2.account := by
  unfold ObjectQueue.check
  rcases h.lookup req with ⟨e, -⟩ | ⟨i, r, hr, -, -, e | e⟩
  · rw [e]
    exact yields_pure (.refl _)
  · rw [e]
    cases update with
    | false => exact yields_pure (.refl _)
    | true =>
      apply yields_bind (touch i r hr)
      intro q' account
      apply yields_pure
      rw [account]
      exact .refl _
  · rw [e]
    cases update with
    | false => exact yields_pure (.refl _)
    | true =>
      apply yields_bind (h.yields_expire hr count)
      intro q' shed
      exact yields_pure shed

end ObjectQueue

namespace EvictionPolicy
variable {σ : Type} [EvictionPolicy σ] {t : Tolerance}

/-- A policy is a queue whose objects begin with a tag, and `onHit` is all it does on a hit. -/
structure Queued {μ : Type} (queue : σ → ObjectQueue μ) (tag : μ)
    (onHit : Request → ObjectQueue μ → Slot → Checked (ObjectQueue μ)) : Prop where
  account_eq : ∀ s : σ, account s = (queue s).account
  queue_withAccount : ∀ (s : σ) (a : Account), queue (withAccount s a) = { queue s with account := a }
  check_eq : ∀ (s : σ) (req : Request) (update : Bool),
    (fun p => (p.1, queue p.2)) <$> check s req update = (queue s).check req update (onHit req)
  insert_eq : ∀ (s : σ) (req : Request),
    (fun p => (p.1, queue p.2)) <$> insert s req = (queue s).push req tag
  evict_eq : ∀ (s : σ) (req : Request),
    (fun p => (p.1, queue p.2)) <$> evict s req = (queue s).dropLast
  remove_eq : ∀ (s : σ) (id : Nat),
    (fun p => (p.1, queue p.2)) <$> remove s id = (queue s).remove id
  settle_eq : ∀ (s : σ) (hit : Bool), settle s hit = pure s
  evictable_eq : ∀ s : σ, evictable s = (queue s).account.objects

namespace Queued
variable {μ : Type} {queue : σ → ObjectQueue μ} {tag : μ}
  {onHit : Request → ObjectQueue μ → Slot → Checked (ObjectQueue μ)} (k : Queued queue tag onHit)
include k

theorem grows_of_sheds {s s' : σ} (h : (queue s).account.Sheds (queue s').account) :
    Grows (fun s => (queue s).account.occupied) s 0 0 s' := by
  constructor
  · rw [k.account_eq, k.account_eq]
    exact h.tally
  · exact h.occupied

theorem roomy {sound : σ → Prop} (kept : ∀ s, sound s → (queue s).Kept fun _ => True)
    (touch : ∀ req q s i r, q.Holds s → q.store.get? i = some r →
      Yields (onHit req q i) fun q' => q'.account = q.account) :
    Roomy (fun s => (queue s).account.occupied)
      (fun s id => ¬(queue s).store.caches id = true) sound where
  occupied s _ := Nat.le_of_eq (by rw [k.account_eq])
  begun s req := by
    rw [k.queue_withAccount, k.account_eq]
    rfl
  check s req update h count _ := by
    obtain ⟨l, holds⟩ := (kept s h).holds
    rw [k.account_eq] at count
    apply (Yields.of_map (k.check_eq s req update)
      (holds.yields_check req update count fun i r hr => touch req _ l i r holds hr)).mono
    intro p shed
    exact k.grows_of_sheds shed
  evict s req h _ := by
    obtain ⟨l, holds⟩ := (kept s h).holds
    apply (Yields.of_map (k.evict_eq s req) holds.yields_dropLast).mono
    intro p shed
    exact k.grows_of_sheds shed
  insert s req h free room word count timely := by
    rw [k.account_eq] at word count ⊢
    have objects : IsWord ((queue s).account.objects + 1) := by
      unfold Account.tally at count
      exact count.of_le (by omega)
    apply (Yields.of_map (k.insert_eq s req) (ObjectQueue.yields_push free word objects timely)).mono
    intro p charged
    constructor
    · rw [k.account_eq, k.account_eq, charged]
      change (queue s).account.objects + 1 + (queue s).account.expired ≤
        (queue s).account.objects + (queue s).account.expired + 1
      omega
    · exact Nat.le_of_eq (congrArg Account.occupied charged)
  remove s id h _ := by
    obtain ⟨l, holds⟩ := (kept s h).holds
    apply (Yields.of_map (k.remove_eq s id) (holds.yields_remove id)).mono
    intro p shed
    refine ⟨k.grows_of_sheds shed, ?_⟩
    rw [k.account_eq, k.account_eq]
    exact shed.terms
  settle s hit _ := by
    rw [k.settle_eq]
    exact yields_pure (.refl s)

theorem settles_remove_terms {s : σ} (kept : (queue s).Kept fun _ => True) (id : Nat) :
    Settles t (remove s id) fun p => (account s).SameTerms (account p.2) := by
  have removed : Settles t ((queue s).remove id) fun p => (queue s).account.SameTerms p.2.account := by
    obtain ⟨l, h⟩ := kept.holds
    unfold ObjectQueue.remove
    cases found : (queue s).store.find? id with
    | none => exact settles_pure (.refl _)
    | some i =>
      obtain ⟨r, hr, -, -⟩ := (h.consistent.find?_eq_some_iff id i).mp found
      apply settles_bind (h.settles_drop hr)
      intro q dropped
      apply settles_pure
      rw [dropped.2.1]
      exact Account.sameTerms_released _ _
  rw [← k.remove_eq s id] at removed
  apply (settles_of_map removed).mono
  intro p same
  rw [k.account_eq, k.account_eq]
  exact same

theorem exists_run (d : Dependable .any (fun s id => (queue s).store.caches id = true)
      (fun s id => ¬(queue s).store.caches id = true) fun s => (queue s).Kept fun _ => True)
    (touch : ∀ req q s i r, q.Holds s → q.store.get? i = some r →
      Yields (onHit req q i) fun q' => q'.account = q.account)
    {s : σ} {capacity overhead : Nat} (fresh : queue s = .empty capacity overhead)
    {ops : List Operation} (room : IsWord (ops.map (Operation.cost overhead)).sum)
    (timely : ∀ op ∈ ops, op.Timely) : ∃ s', run s ops = .ok s' := by
  have built := d.keeping (d.keeps_builtWith capacity overhead fun _ id h => k.settles_remove_terms h id)
  have account : account s = .empty capacity overhead := by
    rw [k.account_eq, fresh]
    rfl
  have kept : ∀ s, (queue s).Kept (fun _ => True) ∧ BuiltWith capacity overhead s →
      (queue s).Kept fun _ => True := fun _ h => h.1
  have roomy := k.roomy kept touch
  apply roomy.exists_run built (fun _ h => h.2.overhead) ?_ ?_ timely
  · refine ⟨?_, ?_, ?_⟩
    · rw [fresh]
      exact ObjectQueue.kept_empty _ capacity overhead
    · rw [account]
      rfl
    · rw [account]
      rfl
  · constructor
    · rw [account]
      exact Nat.le_refl 0
    · rw [account]
      exact room.of_le (by simp [Account.empty])
    · rw [fresh]
      exact room.of_le (by simp [ObjectQueue.empty, Account.empty])

end Queued
end EvictionPolicy

open EvictionPolicy

theorem ObjectQueue.map_rewrap {α β σ : Type} {x : Checked (α × β)} {wrap : β → σ} {unwrap : σ → β}
    (inverse : ∀ b, unwrap (wrap b) = b) :
    (fun p : α × σ => (p.1, unwrap p.2)) <$> (do
      let (a, b) ← x
      pure (a, wrap b)) = x := by
  cases x with
  | error fault => rfl
  | ok p =>
    obtain ⟨a, b⟩ := p
    exact congrArg (fun b => Except.ok (a, b)) (inverse b)

theorem Fifo.queued : Queued Fifo.queue () fun req q i => pure (q.touch i req id) where
  account_eq _ := rfl
  queue_withAccount _ _ := rfl
  check_eq _ _ _ := ObjectQueue.map_rewrap fun _ => rfl
  insert_eq _ _ := ObjectQueue.map_rewrap fun _ => rfl
  evict_eq _ _ := ObjectQueue.map_rewrap fun _ => rfl
  remove_eq _ _ := ObjectQueue.map_rewrap fun _ => rfl
  settle_eq _ _ := rfl
  evictable_eq _ := rfl

theorem Lru.queued : Queued Lru.queue () fun req q i => (q.touch i req id).moveToFront i where
  account_eq _ := rfl
  queue_withAccount _ _ := rfl
  check_eq _ _ _ := ObjectQueue.map_rewrap fun _ => rfl
  insert_eq _ _ := ObjectQueue.map_rewrap fun _ => rfl
  evict_eq _ _ := ObjectQueue.map_rewrap fun _ => rfl
  remove_eq _ _ := ObjectQueue.map_rewrap fun _ => rfl
  settle_eq _ _ := rfl
  evictable_eq _ := rfl

theorem Fifo.exists_run {capacity overhead : Nat} {ops : List Operation}
    (room : IsWord (ops.map (Operation.cost overhead)).sum) (timely : ∀ op ∈ ops, op.Timely) :
    ∃ c, run (Fifo.empty capacity overhead) ops = .ok c := by
  apply queued.exists_run dependable _ rfl room timely
  intro req q s i r _ _
  exact yields_pure rfl

theorem Lru.yields_onHit {q : ObjectQueue Unit} {s : List Slot} {i : Slot} {r : Record Unit}
    (h : q.Holds s) (hr : q.store.get? i = some r) (req : Request) :
    Yields ((q.touch i req id).moveToFront i) fun q' => q'.account = q.account := by
  have touched := h.modify i (f := fun r =>
    { r.touch req q.account.now with tag := id (r.touch req q.account.now).tag }) fun _ => ⟨rfl, rfl, rfl, rfl⟩
  obtain ⟨order, records, e, -, -⟩ := touched.moveToFront ((h.mem i).mpr ⟨r, hr⟩)
  exact ⟨_, e, rfl⟩

theorem Lru.exists_run {capacity overhead : Nat} {ops : List Operation}
    (room : IsWord (ops.map (Operation.cost overhead)).sum) (timely : ∀ op ∈ ops, op.Timely) :
    ∃ c, run (Lru.empty capacity overhead) ops = .ok c := by
  apply queued.exists_run dependable _ rfl room timely
  intro req q s i r h hr
  exact yields_onHit h hr req

end CacheReplay
