import CacheReplay.Proofs.Observation
import CacheReplay.Proofs.QueuePolicies

set_option autoImplicit false

namespace CacheReplay

namespace ObjectQueue
variable {μ : Type}

def accessedAt (q : ObjectQueue μ) (i : Slot) : Option Int := (q.store.get? i).map (·.lastAccess)

def accesses (q : ObjectQueue μ) : List Int := q.slots.filterMap q.accessedAt

/-- The queue is in order as long as the number of requests is a time. -/
structure Aged (q : ObjectQueue μ) : Prop where
  ordered : IsTime q.account.requests → q.accesses.Pairwise fun a b => b ≤ a
  past : IsTime q.account.requests → ∀ i a, q.accessedAt i = some a → a ≤ q.account.now

theorem accessedAt_of_bare {q q' : ObjectQueue μ} {i : Slot}
    (same : (q'.store.get? i).map bare = (q.store.get? i).map bare) : q'.accessedAt i = q.accessedAt i := by
  have noted : ∀ o : Option (Record μ), o.map (·.lastAccess) = (o.map bare).map (·.lastAccess) := by
    intro o
    cases o <;> rfl
  rw [accessedAt, accessedAt, noted, same, ← noted]

theorem aged_empty (capacity overhead : Nat) : (empty capacity overhead : ObjectQueue μ).Aged := by
  have none : ∀ i, (empty capacity overhead : ObjectQueue μ).accessedAt i = .none := by
    intro i
    simp [accessedAt, empty, Store.empty, Store.get?, Arena.get?_empty]
  refine ⟨fun _ => ?_, fun _ i a ha => ?_⟩
  · rw [accesses, show (empty capacity overhead : ObjectQueue μ).accessedAt = fun _ => .none from funext none]
    simp
  · rw [none i] at ha
    cases ha

namespace Holds
variable {q q' : ObjectQueue μ} {s : List Slot} {i : Slot}

theorem slots_eq (h : q.Holds s) : q.slots = s := h.represents.toList_eq

theorem aged_erase (h : q.Holds s) (aged : q.Aged) (h' : q'.Holds (s.erase i))
    (requests : q'.account.requests = q.account.requests) (gone : q'.store.get? i = none)
    (others : ∀ j, j ≠ i → q'.accessedAt j = q.accessedAt j) : q'.Aged := by
  constructor
  all_goals
    intro time
    rw [requests] at time
  · have ordered := aged.ordered time
    rw [accesses, h.slots_eq] at ordered
    have same : (s.erase i).filterMap q'.accessedAt = (s.erase i).filterMap q.accessedAt := by
      apply List.filterMap_congr
      intro j hj
      exact others j fun e => h.represents.nodup.not_mem_erase (e ▸ hj)
    rw [accesses, h'.slots_eq, same]
    exact ordered.sublist ((List.erase_sublist).filterMap _)
  · intro j a ha
    by_cases e : j = i
    · rw [e, accessedAt, gone] at ha
      cases ha
    · rw [others j e] at ha
      rw [Account.now, requests]
      exact aged.past time j a ha

theorem aged_front (h : q.Holds s) (aged : q.Aged) (h' : q'.Holds (i :: s.erase i))
    (requests : q'.account.requests = q.account.requests) (front : q'.accessedAt i = some q.account.now)
    (others : ∀ j, j ≠ i → q'.accessedAt j = q.accessedAt j) : q'.Aged := by
  constructor
  all_goals
    intro time
    rw [requests] at time
  · have ordered := aged.ordered time
    rw [accesses, h.slots_eq] at ordered
    have same : (s.erase i).filterMap q'.accessedAt = (s.erase i).filterMap q.accessedAt := by
      apply List.filterMap_congr
      intro j hj
      exact others j fun e => h.represents.nodup.not_mem_erase (e ▸ hj)
    rw [accesses, h'.slots_eq, List.filterMap_cons_some front, same]
    refine List.pairwise_cons.mpr ⟨fun a ha => ?_, ordered.sublist ((List.erase_sublist).filterMap _)⟩
    obtain ⟨j, -, hj⟩ := List.mem_filterMap.mp ha
    exact aged.past time j a hj
  · intro j a ha
    rw [Account.now, requests]
    by_cases e : j = i
    · rw [e, front] at ha
      cases ha
      exact le_refl _
    · rw [others j e] at ha
      exact aged.past time j a ha

variable {t : Tolerance} (h : q.Holds s) (aged : q.Aged)
include h aged

theorem settles_drop_aged {r : Record μ} (hr : q.store.get? i = some r) :
    Settles t (q.drop i) Aged := by
  apply (h.settles_drop hr).mono
  rintro q' ⟨h', account, get, -⟩
  refine h.aged_erase aged h' ?_ ?_ fun j hj => accessedAt_of_bare ?_
  · rw [account]
    rfl
  · have gone := get i
    rwa [if_pos rfl, Option.map_eq_none_iff] at gone
  · rw [get, if_neg (Ne.symm hj)]

theorem settles_expire_aged {r : Record μ} (hr : q.store.get? i = some r) :
    Settles t (q.expire i) Aged := by
  apply settles_bind (h.settles_drop_aged aged hr)
  intro q' aged'
  apply settles_bind (Account.settles_recordExpired q'.account)
  rintro _ ⟨expired, rfl⟩
  exact settles_pure ⟨aged'.ordered, aged'.past⟩

theorem settles_dropLast_aged : Settles t q.dropLast fun p => p.2.Aged := by
  unfold dropLast
  cases back : q.order.back with
  | none => exact settles_pure aged
  | some i =>
    obtain ⟨r, hr, -⟩ := h.exists_get? (List.mem_of_getLast? (h.represents.back_eq ▸ back))
    exact settles_bind (h.settles_drop_aged aged hr) fun q' done => settles_pure done

theorem settles_remove_aged (id : Nat) : Settles t (q.remove id) fun p => p.2.Aged := by
  unfold remove
  cases found : q.store.find? id with
  | none => exact settles_pure aged
  | some i =>
    obtain ⟨r, hr, -, -⟩ := (h.consistent.find?_eq_some_iff id i).mp found
    exact settles_bind (h.settles_drop_aged aged hr) fun q' done => settles_pure done

theorem settles_push_aged {req : Request} {tag : μ} (free : ¬q.store.caches req.id = true)
    (room : q.account.occupied + (req.size + q.account.overhead) ≤ q.account.capacity) :
    Settles t (q.push req tag) fun p => p.2.Aged := by
  apply (h.settles_push free room).mono
  rintro p ⟨fresh, h', account, ⟨expiry, record⟩, other, -⟩
  rw [← List.erase_of_not_mem fresh] at h'
  refine h.aged_front aged h' ?_ ?_ fun j hj => accessedAt_of_bare (other j hj)
  · rw [account]
    rfl
  · obtain ⟨r, hr, hbare⟩ := Option.map_eq_some_iff.mp record
    rw [accessedAt, hr]
    exact congrArg (fun r => some r.lastAccess) hbare

theorem settles_promote_aged {r : Record μ} (hr : q.store.get? i = some r) (req : Request) (f : μ → μ) :
    Settles t ((q.touch i req f).moveToFront i) Aged := by
  have hi := (h.mem i).mpr ⟨r, hr⟩
  have touched : (q.touch i req f).Holds s := h.modify i fun _ => ⟨rfl, rfl, rfl, rfl⟩
  obtain ⟨order, records, e, h', same⟩ := touched.moveToFront hi
  rw [e]
  have noted : ∀ j, accessedAt ⟨(q.touch i req f).account, { (q.touch i req f).store with records }, order⟩ j =
      (q.touch i req f).accessedAt j := fun j => accessedAt_of_bare (same j)
  refine h.aged_front aged h' rfl ?_ fun j hj => ?_
  · rw [noted, accessedAt, touch]
    dsimp only
    rw [Store.get?_modify, if_pos rfl, hr]
    rfl
  · rw [noted, accessedAt, touch]
    dsimp only
    rw [Store.get?_modify, if_neg (Ne.symm hj)]
    rfl

theorem settles_check_aged (req : Request) (update : Bool)
    {onHit : ObjectQueue μ → Slot → Checked (ObjectQueue μ)}
    (hit : ∀ i r, q.store.get? i = some r → Settles t (onHit q i) Aged) :
    Settles t (q.check req update onHit) fun p => p.2.Aged := by
  unfold ObjectQueue.check
  rcases h.lookup req with ⟨e, -⟩ | ⟨i, r, hr, -, -, e | e⟩
  · rw [e]
    exact settles_pure aged
  · rw [e]
    cases update with
    | false => exact settles_pure aged
    | true => exact settles_bind (hit i r hr) fun q' done => settles_pure done
  · rw [e]
    cases update with
    | false => exact settles_pure aged
    | true => exact settles_bind (h.settles_expire_aged aged hr) fun q' done => settles_pure done

end Holds
end ObjectQueue

/-- Every operation of a cache that gives up the least recently used object keeps its queue in order. -/
theorem Lru.keeps_aged {t : Tolerance} : Keeps t (fun (c : Lru) id => ¬c.queue.store.caches id = true)
    (fun c => c.queue.Kept fun _ => True) fun c => c.queue.Aged where
  begun c req _ aged := by
    have earlier : IsTime ((c.queue.account.requests + 1 : Nat) : Int) → IsTime c.queue.account.requests := by
      rintro ⟨low, high⟩
      constructor <;> omega
    refine ⟨fun time => aged.ordered (earlier time), fun time i a ha => (aged.past (earlier time) i a ha).trans ?_⟩
    show timeOfWord c.queue.account.requests ≤ timeOfWord (c.queue.account.requests + 1)
    rw [timeOfWord_of_isTime (earlier time)]
    exact Int.le_trans (Int.le_of_lt (Int.lt_succ _)) (Int.le_of_eq (timeOfWord_of_isTime time).symm)
  check c req update k aged := by
    obtain ⟨s, h⟩ := k.holds
    apply settles_bind (h.settles_check_aged aged req update fun i r hr => h.settles_promote_aged aged hr req id)
    exact fun p done => settles_pure done
  evict c req k aged := by
    obtain ⟨s, h⟩ := k.holds
    exact settles_bind (h.settles_dropLast_aged aged) fun p done => settles_pure done
  insert c req k aged free room := by
    obtain ⟨s, h⟩ := k.holds
    exact settles_bind (h.settles_push_aged aged free room) fun p done => settles_pure done
  remove c id k aged := by
    obtain ⟨s, h⟩ := k.holds
    exact settles_bind (h.settles_remove_aged aged id) fun p done => settles_pure done
  settle c hit _ aged := settles_pure aged

end CacheReplay
