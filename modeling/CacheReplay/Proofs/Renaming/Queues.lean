import CacheReplay.Policy.Clock
import CacheReplay.Policy.Fifo
import CacheReplay.Policy.Lru
import CacheReplay.Policy.Sieve
import CacheReplay.Proofs.Renaming.Runs

set_option autoImplicit false

namespace CacheReplay

variable {μ : Type} {f : Nat → Nat}

namespace ObjectQueue

def Renamed (f : Nat → Nat) (q q' : ObjectQueue μ) : Prop :=
  ∃ s', q.store.Renamed f s' ∧ q' = { q with store := s' }

theorem renamed_empty (capacity overhead : Nat) :
    (empty capacity overhead : ObjectQueue μ).Renamed f (empty capacity overhead) :=
  ⟨_, Store.renamed_empty f, rfl⟩

namespace Renamed
variable {q q' : ObjectQueue μ} (h : q.Renamed f q')
include h

theorem account_eq : q'.account = q.account := by
  obtain ⟨s', hs, rfl⟩ := h
  rfl

theorem order_eq : q'.order = q.order := by
  obtain ⟨s', hs, rfl⟩ := h
  rfl

theorem back_eq : q'.order.back = q.order.back := congrArg Chain.back h.order_eq

theorem get? (i : Slot) : q'.store.get? i = (q.store.get? i).map (Record.rename f) := by
  obtain ⟨s', hs, rfl⟩ := h
  exact hs.get? i

theorem prevOf (i : Slot) : q'.store.records.prevOf i = q.store.records.prevOf i := by
  obtain ⟨s', hs, rfl⟩ := h
  dsimp only
  rw [hs.records, prevOf_rename]

theorem find? (id : Nat) : q'.store.find? (f id) = q.store.find? id := by
  obtain ⟨s', hs, rfl⟩ := h
  exact hs.find? id

theorem withAccount (account : Account) :
    Renamed f { q with account } { q' with account } := by
  obtain ⟨s', hs, rfl⟩ := h
  exact ⟨s', hs, rfl⟩

theorem lookup (req : Request) : q'.lookup (req.rename f) = q.lookup req := by
  obtain ⟨s', hs, rfl⟩ := h
  unfold ObjectQueue.lookup
  dsimp only
  rw [Request.rename_id, hs.find?]
  cases q.store.find? req.id with
  | none => rfl
  | some i =>
    dsimp only
    rw [hs.get?]
    cases q.store.get? i <;> rfl

theorem modify (i : Slot) {g g' : Record μ → Record μ} (same : ∀ r, g' (r.rename f) = (g r).rename f) :
    Renamed f { q with store := q.store.modify i g } { q' with store := q'.store.modify i g' } := by
  obtain ⟨s', hs, rfl⟩ := h
  exact ⟨_, hs.modify i same, rfl⟩

theorem touch (i : Slot) (req : Request) (g : μ → μ) :
    (q.touch i req g).Renamed f (q'.touch i (req.rename f) g) := by
  obtain ⟨s', hs, rfl⟩ := h
  exact ⟨_, hs.touch i req q.account.now g, rfl⟩

theorem retag (i : Slot) (tag : μ) :
    Renamed f { q with store := q.store.modify i fun r => { r with tag } }
      { q' with store := q'.store.modify i fun r => { r with tag } } :=
  h.modify i fun _ => rfl

theorem moveToFront (i : Slot) : Alike (Renamed f) (q.moveToFront i) (q'.moveToFront i) := by
  obtain ⟨s', hs, rfl⟩ := h
  unfold ObjectQueue.moveToFront
  dsimp only
  rw [hs.records, moveToFront_rename]
  exact .bind_map _ fun p => .pure ⟨_, hs.relinked p.2, rfl⟩

variable (inj : Function.Injective f)
include inj

theorem drop (i : Slot) : Alike (Renamed f) (q.drop i) (q'.drop i) := by
  obtain ⟨s', hs, rfl⟩ := h
  unfold ObjectQueue.drop
  dsimp only
  rw [hs.records, unlink_rename]
  refine .bind_map _ fun p => ((hs.relinked p.2).delete inj i).bind ?_
  rintro ⟨gone, s⟩ ⟨_, t⟩ ⟨rfl, deleted⟩
  cases gone with
  | none => exact .pure ⟨t, deleted, rfl⟩
  | some r => exact .bind_same _ fun account => .pure ⟨t, deleted, rfl⟩

theorem expire (i : Slot) : Alike (Renamed f) (q.expire i) (q'.expire i) := by
  refine (h.drop inj i).bind fun d d' hd => ?_
  rw [hd.account_eq]
  exact .bind_same _ fun account => .pure (hd.withAccount account)

theorem push (req : Request) (tag : μ) :
    Alike (Agree (Renamed f)) (q.push req tag) (q'.push (req.rename f) tag) := by
  obtain ⟨s', hs, rfl⟩ := h
  refine (hs.insert inj req q.account.now tag).bind ?_
  rintro ⟨i, s⟩ ⟨_, t⟩ ⟨rfl, ht⟩
  dsimp only
  rw [ht.records, pushFront_rename]
  exact .bind_same _ fun account => .pure ⟨rfl, _, ht.relinked _, rfl⟩

theorem check (req : Request) (update : Bool)
    {onHit onHit' : ObjectQueue μ → Slot → Checked (ObjectQueue μ)}
    (hit : ∀ i, Alike (Renamed f) (onHit q i) (onHit' q' i)) :
    Alike (Agree (Renamed f)) (q.check req update onHit) (q'.check (req.rename f) update onHit') := by
  unfold ObjectQueue.check
  rw [h.lookup]
  cases q.lookup req with
  | missing => exact .pure ⟨rfl, h⟩
  | expired i =>
    cases update with
    | false => exact .pure ⟨rfl, h⟩
    | true => exact (h.expire inj i).bind fun d d' hd => .pure ⟨rfl, hd⟩
  | found i =>
    cases update with
    | false => exact .pure ⟨rfl, h⟩
    | true => exact (hit i).bind fun d d' hd => .pure ⟨rfl, hd⟩

theorem dropLast : Alike (Agree (Renamed f)) q.dropLast q'.dropLast := by
  unfold ObjectQueue.dropLast
  rw [h.back_eq]
  cases q.order.back with
  | none => exact .pure ⟨rfl, h⟩
  | some i => exact (h.drop inj i).bind fun d d' hd => .pure ⟨rfl, hd⟩

theorem remove (id : Nat) : Alike (Agree (Renamed f)) (q.remove id) (q'.remove (f id)) := by
  unfold ObjectQueue.remove
  rw [h.find?]
  cases q.store.find? id with
  | none => exact .pure ⟨rfl, h⟩
  | some i => exact (h.drop inj i).bind fun d d' hd => .pure ⟨rfl, hd⟩

end Renamed
end ObjectQueue

open EvictionPolicy

theorem alike_through {α σ τ : Type} {rel : σ → σ → Prop} {outer : τ → τ → Prop}
    {x y : Checked (α × σ)} (put put' : σ → τ) (keep : ∀ q q', rel q q' → outer (put q) (put' q'))
    (h : Alike (Agree rel) x y) : Alike (Agree outer)
      (x >>= fun p => pure (p.1, put p.2)) (y >>= fun p => pure (p.1, put' p.2)) :=
  h.bind fun _ _ agree => .pure ⟨agree.1, keep _ _ agree.2⟩

namespace Fifo

def Renamed (f : Nat → Nat) (c c' : Fifo) : Prop := c.queue.Renamed f c'.queue

theorem impartial (inj : Function.Injective f) : Impartial f (Renamed f) where
  name _ := rfl
  account h := ObjectQueue.Renamed.account_eq h
  evictable h := congrArg Account.objects (ObjectQueue.Renamed.account_eq h)
  withAccount a h := ObjectQueue.Renamed.withAccount h a
  check req update h := by
    refine alike_through Fifo.mk Fifo.mk (fun _ _ hq => hq) ?_
    exact ObjectQueue.Renamed.check h inj req update fun i => .pure (h.touch i req id)
  insert req h := alike_through Fifo.mk Fifo.mk (fun _ _ hq => hq) (ObjectQueue.Renamed.push h inj req ())
  evict _ h := alike_through Fifo.mk Fifo.mk (fun _ _ hq => hq) (ObjectQueue.Renamed.dropLast h inj)
  remove id h := alike_through Fifo.mk Fifo.mk (fun _ _ hq => hq) (ObjectQueue.Renamed.remove h inj id)
  settle _ h := .pure h

end Fifo

namespace Lru

def Renamed (f : Nat → Nat) (c c' : Lru) : Prop := c.queue.Renamed f c'.queue

theorem impartial (inj : Function.Injective f) : Impartial f (Renamed f) where
  name _ := rfl
  account h := ObjectQueue.Renamed.account_eq h
  evictable h := congrArg Account.objects (ObjectQueue.Renamed.account_eq h)
  withAccount a h := ObjectQueue.Renamed.withAccount h a
  check req update h := by
    refine alike_through Lru.mk Lru.mk (fun _ _ hq => hq) ?_
    exact ObjectQueue.Renamed.check h inj req update fun i => (h.touch i req id).moveToFront i
  insert req h := alike_through Lru.mk Lru.mk (fun _ _ hq => hq) (ObjectQueue.Renamed.push h inj req ())
  evict _ h := alike_through Lru.mk Lru.mk (fun _ _ hq => hq) (ObjectQueue.Renamed.dropLast h inj)
  remove id h := alike_through Lru.mk Lru.mk (fun _ _ hq => hq) (ObjectQueue.Renamed.remove h inj id)
  settle _ h := .pure h

end Lru

namespace Clock

def Renamed (f : Nat → Nat) (c c' : Clock) : Prop :=
  ∃ q', c.queue.Renamed f q' ∧ c' = { c with queue := q' }

theorem renamed_of_queue (c : Clock) (q q' : ObjectQueue Nat) (h : q.Renamed f q') :
    Renamed f { c with queue := q } { c with queue := q' } := ⟨q', h, rfl⟩

theorem count_rename (r : Option (Record Nat)) :
    (r.map (Record.rename f)).elim 0 (·.tag) = r.elim 0 (·.tag) := by
  cases r <;> rfl

/-- The scan reads counters and handles, so it drops from the same cell. -/
theorem renamed_scan (inj : Function.Injective f) (steps : Nat) {c c' : Clock} (h : c.Renamed f c') :
    Alike (Agree (Renamed f)) (scan steps c) (scan steps c') := by
  induction steps generalizing c c' with
  | zero =>
    obtain ⟨q', hq, rfl⟩ := h
    unfold scan
    dsimp only
    rw [hq.back_eq]
    cases c.queue.order.back with
    | none => exact .pure ⟨rfl, q', hq, rfl⟩
    | some i =>
      dsimp only
      rw [hq.get?, count_rename]
      split
      · exact (hq.drop inj i).bind fun _ q' hq => .pure ⟨rfl, q', hq, rfl⟩
      · exact .pure ⟨rfl, q', hq, rfl⟩
  | succ steps ih =>
    obtain ⟨q', hq, rfl⟩ := h
    unfold scan
    dsimp only
    rw [hq.back_eq]
    cases c.queue.order.back with
    | none => exact .pure ⟨rfl, q', hq, rfl⟩
    | some i =>
      dsimp only
      rw [hq.get?, count_rename]
      split
      · exact (hq.drop inj i).bind fun _ q' hq => .pure ⟨rfl, q', hq, rfl⟩
      · rename_i count _
        refine ((hq.retag i count).moveToFront i).bind fun q q' hq => ?_
        exact .bind_same _ fun reinserted => ih ⟨q', hq, rfl⟩

theorem impartial (inj : Function.Injective f) : Impartial f (Renamed f) where
  name _ := rfl
  account := by
    rintro c _ ⟨q', hq, rfl⟩
    exact hq.account_eq
  evictable := by
    rintro c _ ⟨q', hq, rfl⟩
    exact congrArg Account.objects hq.account_eq
  withAccount := by
    rintro c _ a ⟨q', hq, rfl⟩
    exact ⟨_, hq.withAccount a, rfl⟩
  check := by
    rintro c _ req update ⟨q', hq, rfl⟩
    refine alike_through (fun q => { c with queue := q }) (fun q => { c with queue := q })
      (renamed_of_queue c) ?_
    exact hq.check inj req update fun i => .pure (hq.touch i req _)
  insert := by
    rintro c _ req ⟨q', hq, rfl⟩
    exact alike_through (fun q => { c with queue := q }) (fun q => { c with queue := q })
      (renamed_of_queue c) (hq.push inj req 0)
  evict := by
    rintro c _ req ⟨q', hq, rfl⟩
    have scanned := renamed_scan inj (c.maxCount * c.queue.order.length) (renamed_of_queue c _ _ hq)
    show Alike _ c.evict (evict { c with queue := q' })
    unfold evict
    dsimp only
    rw [hq.order_eq]
    exact scanned
  remove := by
    rintro c _ id ⟨q', hq, rfl⟩
    exact alike_through (fun q => { c with queue := q }) (fun q => { c with queue := q })
      (renamed_of_queue c) (hq.remove inj id)
  settle _ h := .pure h

end Clock

namespace Sieve

def Renamed (f : Nat → Nat) (c c' : Sieve) : Prop :=
  ∃ q', c.queue.Renamed f q' ∧ c' = { c with queue := q' }

theorem renamed_of_queue (c : Sieve) (q q' : ObjectQueue Bool) (h : q.Renamed f q') :
    Renamed f { c with queue := q } { c with queue := q' } := ⟨q', h, rfl⟩

theorem mark_rename (r : Option (Record Bool)) :
    (r.map (Record.rename f)).any (·.tag) = r.any (·.tag) := by
  cases r <;> rfl

theorem Renamed.advance_eq {c c' : Sieve} (h : c.Renamed f c') (i : Slot) :
    c'.advance i = c.advance i := by
  obtain ⟨q', hq, rfl⟩ := h
  unfold advance
  dsimp only
  rw [hq.prevOf, hq.order_eq]

variable (inj : Function.Injective f) {c c' : Sieve} (h : c.Renamed f c')
include inj h

theorem Renamed.drop (i : Slot) : Alike (Renamed f) (c.drop i) (c'.drop i) := by
  obtain ⟨q', hq, rfl⟩ := h
  unfold Sieve.drop
  dsimp only
  rw [hq.prevOf]
  exact (hq.drop inj i).bind fun _ q' hq => .pure ⟨q', hq, rfl⟩

theorem Renamed.check (req : Request) (update : Bool) :
    Alike (Agree (Renamed f)) (c.check req update) (c'.check (req.rename f) update) := by
  have dropped := Renamed.drop inj h
  obtain ⟨q', hq, rfl⟩ := h
  unfold Sieve.check
  dsimp only
  rw [hq.lookup]
  cases c.queue.lookup req with
  | missing => exact .pure ⟨rfl, q', hq, rfl⟩
  | expired i =>
    cases update with
    | false => exact .pure ⟨rfl, q', hq, rfl⟩
    | true =>
      refine (dropped i).bind ?_
      rintro d _ ⟨q', hq, rfl⟩
      dsimp only
      rw [hq.account_eq]
      exact .bind_same _ fun account => .pure ⟨rfl, _, hq.withAccount account, rfl⟩
  | found i =>
    cases update with
    | false => exact .pure ⟨rfl, q', hq, rfl⟩
    | true => exact .pure ⟨rfl, _, hq.touch i req _, rfl⟩

theorem Renamed.remove (id : Nat) :
    Alike (Agree (Renamed f)) (c.remove id) (c'.remove (f id)) := by
  have dropped := Renamed.drop inj h
  obtain ⟨q', hq, rfl⟩ := h
  unfold Sieve.remove
  dsimp only
  rw [hq.find?]
  cases c.queue.store.find? id with
  | none => exact .pure ⟨rfl, q', hq, rfl⟩
  | some i => exact (dropped i).bind fun _ _ hd => .pure ⟨rfl, hd⟩

omit h in
theorem renamed_sweep (steps : Nat) (i : Option Slot) {c c' : Sieve} (h : c.Renamed f c') :
    Alike (Agree (Renamed f)) (sweep steps c i) (sweep steps c' i) := by
  induction steps generalizing c c' i with
  | zero =>
    cases i with
    | none => exact .pure ⟨rfl, h⟩
    | some i =>
      obtain ⟨q', hq, rfl⟩ := h
      unfold sweep
      dsimp only
      rw [hq.get?, mark_rename, hq.prevOf]
      split
      · exact .pure ⟨rfl, q', hq, rfl⟩
      · exact (hq.drop inj i).bind fun _ q' hq => .pure ⟨rfl, q', hq, rfl⟩
  | succ steps ih =>
    cases i with
    | none => exact .pure ⟨rfl, h⟩
    | some i =>
      obtain ⟨q', hq, rfl⟩ := h
      unfold sweep
      dsimp only
      rw [hq.get?, mark_rename, hq.prevOf]
      split
      · have cleared := hq.retag i false
        have advanced := renamed_of_queue c _ _ cleared
        rw [← advanced.advance_eq i]
        exact ih _ advanced
      · exact (hq.drop inj i).bind fun _ q' hq => .pure ⟨rfl, q', hq, rfl⟩

omit h in
theorem impartial : Impartial f (Renamed f) where
  name _ := rfl
  account := by
    rintro c _ ⟨q', hq, rfl⟩
    exact hq.account_eq
  evictable := by
    rintro c _ ⟨q', hq, rfl⟩
    exact congrArg Account.objects hq.account_eq
  withAccount := by
    rintro c _ a ⟨q', hq, rfl⟩
    exact ⟨_, hq.withAccount a, rfl⟩
  check req update h := Renamed.check inj h req update
  insert := by
    rintro c _ req ⟨q', hq, rfl⟩
    exact alike_through (fun q => { c with queue := q }) (fun q => { c with queue := q })
      (renamed_of_queue c) (hq.push inj req false)
  evict := by
    rintro c _ req ⟨q', hq, rfl⟩
    have swept := renamed_sweep inj c.queue.order.length c.start (renamed_of_queue c _ _ hq)
    show Alike _ c.evict (evict { c with queue := q' })
    unfold evict start
    dsimp only
    rw [hq.order_eq]
    exact swept
  remove id h := Renamed.remove inj h id
  settle _ h := .pure h

end Sieve
end CacheReplay
