import CacheReplay.Proofs.Arc
import CacheReplay.Proofs.Headroom

set_option autoImplicit false

namespace CacheReplay

namespace SizedChain
variable {t : Tolerance} (l : SizedChain) (a : Arena (Record Tier)) (i : Slot) (n : Nat)

theorem settles_detach_same :
    Settles t (l.detach a i n) fun p => l.bytes = n + p.1.bytes ∧ a.Same bare p.2 := by
  refine settles_bind (Chain.settles_unlink_same l.order a i) fun p same => ?_
  exact settles_bind (settles_subWord _ _) fun left e => settles_pure ⟨e, same⟩

theorem settles_attach_same : Settles t (l.attach a i n) fun p =>
    p.1.bytes = l.bytes + n ∧ IsWord p.1.bytes ∧ a.Same bare p.2 := by
  refine settles_bind (settles_addWord _ _) fun bytes sum => ?_
  exact settles_pure ⟨sum.1, sum.2, Chain.same_pushFront l.order a i⟩

end SizedChain

namespace Store
variable {μ : Type}

def Inherits (s s' : Store μ) : Prop := ∀ j v, s'.get? j = some v →
  ∃ u, s.get? j = some u ∧ u.size = v.size ∧ u.expiry = v.expiry

theorem Inherits.refl (s : Store μ) : s.Inherits s := fun _ v hv => ⟨v, hv, rfl, rfl⟩

theorem Inherits.trans {a b c : Store μ} (h : a.Inherits b) (k : b.Inherits c) : a.Inherits c := by
  intro j w hw
  obtain ⟨v, hv, size, expiry⟩ := k j w hw
  obtain ⟨u, hu, size', expiry'⟩ := h j v hv
  exact ⟨u, hu, size'.trans size, expiry'.trans expiry⟩

theorem inherits_relinked (s : Store μ) {records : Arena (Record μ)}
    (same : s.records.Same bare records) : s.Inherits { s with records } := by
  intro j v hv
  obtain ⟨u, hu, hbare⟩ := same.symm.get? hv
  obtain ⟨l, rfl⟩ := Record.exists_links_of_bare hbare
  exact ⟨_, hu, rfl, rfl⟩

theorem inherits_modify (s : Store μ) (i : Slot) {f : Record μ → Record μ}
    (hf : ∀ r, (f r).size = r.size ∧ (f r).expiry = r.expiry) : s.Inherits (s.modify i f) := by
  intro j v hv
  rw [get?_modify] at hv
  split at hv
  · obtain ⟨u, hu, rfl⟩ := Option.map_eq_some_iff.mp hv
    exact ⟨u, hu, (hf u).1.symm, (hf u).2.symm⟩
  · exact ⟨v, hv, rfl, rfl⟩

theorem settles_delete_inherits (s : Store μ) (i : Slot) :
    Settles .any (s.delete i) fun p => s.Inherits p.2 := by
  have removed : ∀ index n, s.Inherits ⟨(s.records.remove i).2, index, n⟩ := by
    intro index n j v hv
    rw [get?, Arena.get?_remove] at hv
    split at hv
    · cases hv
    · exact ⟨v, hv, rfl, rfl⟩
  unfold delete
  split
  · rename_i e
    rw [e] at removed
    exact settles_pure (removed s.index s.liveCount)
  · rename_i e
    rw [e] at removed
    split
    · exact settles_pure (removed s.index s.liveCount)
    · apply settles_bind (settles_any (s.vacate ..))
      intro p _
      exact settles_pure (removed _ p.2)

theorem settles_demote_inherits (s : Store μ) (i : Slot) :
    Settles .any (s.demote i) fun p => s.Inherits p.2 := by
  unfold demote
  split
  · exact settles_pure (.refl s)
  · rename_i r _
    split
    · exact settles_pure (.refl s)
    · apply settles_bind (settles_any (subWord s.liveCount 1))
      intro n _
      refine settles_pure fun j v hv => ?_
      change (displace (s.records.modify i _) (s.entry r.id).ghost).2.get? j = some v at hv
      rw [get?_displace] at hv
      split at hv
      · cases hv
      · exact s.inherits_modify i (f := fun r => { r with ghost := true }) (fun _ => ⟨rfl, rfl⟩) j v hv

end Store

namespace Arc
variable {t : Tolerance}

def bytesOf (c : Arc) (k : Tier × Bool) : Nat := (c.list k.1 k.2).bytes

/-- The bytes of all four lists. -/
def total (c : Arc) : Nat := c.t1.bytes + c.t2.bytes + c.b1.bytes + c.b2.bytes

theorem bytesOf_mk (c : Arc) (account : Account) (store : Store Tier) (target : Float)
    (ghostHit : Option Tier) (k : Tier × Bool) :
    (mk account store c.t1 c.t2 c.b1 c.b2 target ghostHit).bytesOf k = c.bytesOf k := by
  rw [bytesOf, list_mk, bytesOf]

theorem total_eq (c : Arc) : c.total = c.bytesOf (.recent, false) + c.bytesOf (.frequent, false) +
    c.bytesOf (.recent, true) + c.bytesOf (.frequent, true) := rfl

theorem bytesOf_le_total (c : Arc) (k : Tier × Bool) : c.bytesOf k ≤ c.total := by
  rw [total_eq]
  obtain ⟨tier, ghost⟩ := k
  cases tier <;> cases ghost <;> omega

/-- Every byte counter is in range. -/
def Ranged (c : Arc) : Prop := ∀ k, IsWord (c.bytesOf k)

theorem ranged_empty (capacity overhead : Nat) : (empty capacity overhead).Ranged := by
  intro k
  obtain ⟨tier, ghost⟩ := k
  have zero : IsWord 0 := by decide
  cases tier <;> cases ghost <;> exact zero

structure Shifted (c : Arc) (k : Tier × Bool) (bytes : Nat) (d : Arc) : Prop where
  bytes : ∀ m, d.bytesOf m = if m = k then bytes else c.bytesOf m
  records : c.store.Inherits d.store
  account : d.account = c.account
  ghostHit : d.ghostHit = c.ghostHit

theorem shifted_withList (c : Arc) {records : Arena (Record Tier)} (l : SizedChain) (k : Tier × Bool)
    (same : c.store.records.Same bare records) :
    c.Shifted k l.bytes ({ c with store := { c.store with records } }.withList l k.1 k.2) where
  bytes m := by
    rw [bytesOf, list_withList, list_mk]
    split
    · rfl
    · rfl
  records := by
    rw [store_withList]
    exact c.store.inherits_relinked same
  account := account_withList ..
  ghostHit := ghostHit_withList ..

theorem Shifted.total {c d : Arc} {k : Tier × Bool} {bytes : Nat} (h : c.Shifted k bytes d) :
    d.total + c.bytesOf k = c.total + bytes := by
  rw [total_eq, total_eq, h.bytes, h.bytes, h.bytes, h.bytes]
  obtain ⟨tier, ghost⟩ := k
  cases tier <;> cases ghost <;> simp <;> omega

theorem Shifted.ranged {c d : Arc} {k : Tier × Bool} {bytes : Nat} (h : c.Shifted k bytes d)
    (word : IsWord bytes) (ranged : c.Ranged) : d.Ranged := by
  intro m
  rw [h.bytes]
  split
  · exact word
  · exact ranged m

theorem settles_detach_bytes (c : Arc) (k : Tier × Bool) (i : Slot) (n : Nat) :
    Settles t (c.detach k.1 k.2 i n) fun d => ∃ left, c.bytesOf k = n + left ∧ c.Shifted k left d := by
  refine settles_bind ((c.list k.1 k.2).settles_detach_same c.store.records i n) fun p done => ?_
  obtain ⟨left, same⟩ := done
  exact settles_pure ⟨p.1.bytes, left, c.shifted_withList p.1 k same⟩

theorem settles_attach_bytes (c : Arc) (k : Tier × Bool) (i : Slot) (n : Nat) :
    Settles t (c.attach k.1 k.2 i n) fun d =>
      IsWord (c.bytesOf k + n) ∧ c.Shifted k (c.bytesOf k + n) d := by
  refine settles_bind ((c.list k.1 k.2).settles_attach_same c.store.records i n) fun p done => ?_
  obtain ⟨sum, word, same⟩ := done
  have shifted := c.shifted_withList p.1 k same
  rw [sum] at word shifted
  exact settles_pure ⟨word, shifted⟩

/-- What everything but an admission keeps. -/
structure Carries (c d : Arc) : Prop where
  ranged : c.Ranged → d.Ranged
  total : d.total ≤ c.total
  records : c.store.Inherits d.store
  tally : d.account.tally ≤ c.account.tally

namespace Carries
variable {b c d : Arc}

theorem refl (c : Arc) : c.Carries c := ⟨id, Nat.le_refl _, .refl _, Nat.le_refl _⟩

theorem trans (h : b.Carries c) (k : c.Carries d) : b.Carries d where
  ranged r := k.ranged (h.ranged r)
  total := Nat.le_trans k.total h.total
  records := h.records.trans k.records
  tally := Nat.le_trans k.tally h.tally

theorem remake (h : b.Carries c) {account : Account} {store : Store Tier} (target : Float)
    (ghostHit : Option Tier) (records : c.store.Inherits store)
    (tally : account.tally ≤ b.account.tally) :
    b.Carries (Arc.mk account store c.t1 c.t2 c.b1 c.b2 target ghostHit) where
  ranged r k := by
    rw [bytesOf_mk]
    exact h.ranged r k
  total := h.total
  records := h.records.trans records
  tally := tally

theorem detach (c : Arc) (k : Tier × Bool) (i : Slot) (n : Nat) :
    Settles t (c.detach k.1 k.2 i n) c.Carries := by
  apply (settles_detach_bytes c k i n).mono
  intro d moved
  obtain ⟨left, split, shifted⟩ := moved
  have sum := shifted.total
  constructor
  · intro ranged
    have before := ranged k
    exact shifted.ranged (before.of_le (by omega)) ranged
  · omega
  · exact shifted.records
  · rw [shifted.account]

theorem move (c : Arc) (k m : Tier × Bool) (i : Slot) (n : Nat) : Settles t (do
    let d ← c.detach k.1 k.2 i n
    d.attach m.1 m.2 i n) c.Carries := by
  apply settles_bind ((settles_detach_bytes c k i n).and (detach c k i n))
  intro d detached
  obtain ⟨⟨left, split, lost⟩, carried⟩ := detached
  apply (settles_attach_bytes d m i n).mono
  intro e attached
  obtain ⟨word, gained⟩ := attached
  have less := lost.total
  have more := gained.total
  constructor
  · intro ranged
    exact gained.ranged word (carried.ranged ranged)
  · omega
  · exact carried.records.trans gained.records
  · rw [gained.account]
    exact carried.tally

theorem drop (c : Arc) (i : Slot) : Settles .any (c.drop i) c.Carries := by
  unfold Arc.drop
  split
  · exact settles_pure (.refl c)
  · rename_i r _
    apply settles_bind (settles_any (c.account.footprint r.size))
    intro bytes _
    apply settles_bind (detach c (r.tag, r.ghost) i bytes)
    intro d carried
    apply settles_bind (d.store.settles_delete_inherits i)
    intro p deleted
    dsimp only
    split
    · exact settles_pure (carried.remake _ _ deleted carried.tally)
    · apply settles_bind (Account.settles_release_tally d.account r.size)
      intro account released
      exact settles_pure (carried.remake _ _ deleted (Nat.le_trans released carried.tally))

theorem dropLastGhost (c : Arc) (tier : Tier) : Settles .any (c.dropLastGhost tier) c.Carries := by
  unfold Arc.dropLastGhost
  split
  · exact settles_pure (.refl c)
  · exact drop c _

theorem demoteLast (c : Arc) (tier : Tier) : Settles .any (c.demoteLast tier) c.Carries := by
  unfold Arc.demoteLast
  split
  · exact settles_pure (.refl c)
  · rename_i i _
    split
    · exact settles_pure (.refl c)
    · rename_i r _
      have moved : ∀ d : Arc, c.Carries d → Settles .any (do
          let bytes ← d.account.footprint r.size
          let d ← d.detach tier false i bytes
          let d ← d.attach tier true i bytes
          let p ← d.store.demote i
          let account ← d.account.release r.size
          pure { d with store := p.2, account }) c.Carries := by
        intro d carried
        apply settles_bind (settles_any (d.account.footprint r.size))
        intro bytes _
        rw [← bind_assoc]
        apply settles_bind (move d (tier, false) (tier, true) i bytes)
        intro e moved
        apply settles_bind (e.store.settles_demote_inherits i)
        intro p demoted
        apply settles_bind (Account.settles_release_tally e.account r.size)
        intro account released
        have both := carried.trans moved
        exact settles_pure (both.remake _ _ demoted (Nat.le_trans released both.tally))
      dsimp only
      split
      · exact settles_bind (settles_pure (.refl c)) moved
      · exact settles_bind (drop c _) moved

theorem step (c : Arc) (size : Nat) : Settles .any (c.step size) c.Carries := by
  have after : ∀ tier, Settles .any (do
      let d ← c.dropLastGhost tier
      d.replace) c.Carries := by
    intro tier
    apply settles_bind (dropLastGhost c tier)
    intro d dropped
    exact (demoteLast d _).mono fun e demoted => dropped.trans demoted
  unfold Arc.step
  split
  · exact demoteLast c _
  · apply settles_bind (settles_any (c.recentFull size))
    intro full _
    split
    · split
      · exact after .recent
      · split
        · exact drop c _
        · exact demoteLast c _
    · apply settles_bind (settles_any c.directoryFull)
      intro full _
      dsimp only
      split
      · exact after .frequent
      · exact demoteLast c _

theorem promote (c : Arc) (i : Slot) (r : Record Tier) (req : Request) :
    Settles .any (c.promote i r req) c.Carries := by
  unfold Arc.promote
  apply settles_bind (settles_any (c.account.footprint r.size))
  intro bytes _
  have noted := c.store.inherits_modify i (f := fun r =>
    { r.touch req c.account.now with tag := .frequent }) fun _ => ⟨rfl, rfl⟩
  have touched := (Carries.refl c).remake c.target c.ghostHit noted (Nat.le_refl _)
  dsimp only
  split
  · exact (move _ (.recent, false) (.frequent, false) i bytes).mono fun d moved => touched.trans moved
  · apply settles_bind (Chain.settles_moveToFront_same c.t2.order _ i)
    intro p same
    apply settles_pure
    constructor
    · intro ranged k
      have word := ranged k
      obtain ⟨tier, ghost⟩ := k
      cases tier <;> cases ghost <;> exact word
    · exact Nat.le_refl _
    · exact noted.trans (Store.inherits_relinked _ same)
    · exact Nat.le_refl _

end Carries

namespace Sound
variable {c : Arc} (h : c.Sound)
include h

theorem settles_checkLive_carries {i : Slot} {r : Record Tier} (hr : c.store.get? i = some r)
    (live : r.ghost = false) (req : Request) (update : Bool) :
    Settles .any (c.checkLive i r req update) fun p => c.Carries p.2 := by
  unfold checkLive
  split
  · split
    · apply settles_bind ((Carries.drop c i).and (h.settles_drop hr))
      intro d dropped
      obtain ⟨carried, -, account, -⟩ := dropped
      rw [live, if_neg Bool.false_ne_true] at account
      have covers := h.balanced.covers (Store.liveSize?_of_live hr live)
      apply settles_bind d.account.settles_recordExpired_counts
      intro counted e
      apply settles_pure
      apply carried.remake d.target d.ghostHit (.refl _)
      rw [e, account]
      change c.account.objects - 1 + (c.account.expired + 1) ≤ c.account.objects + c.account.expired
      omega
    · exact settles_pure (.refl c)
  · dsimp only
    split
    · apply settles_bind (Carries.promote c i r req)
      intro d promoted
      exact settles_pure promoted
    · exact settles_pure (.refl c)

theorem settles_check_carries (req : Request) (update : Bool) :
    Settles .any (c.check req update) fun p => c.Carries p.2 := by
  -- Forgetting what the last request hit changes nothing that counts here.
  obtain ⟨d, hd, sound, carried⟩ : ∃ d, (if update then { c with ghostHit := none } else c) = d ∧
      d.Sound ∧ c.Carries d := by
    cases update with
    | true =>
      exact ⟨_, rfl, h.recount c.account rfl rfl rfl rfl c.target none,
        (Carries.refl c).remake c.target none (.refl _) (Nat.le_refl _)⟩
    | false => exact ⟨_, rfl, h, .refl c⟩
  unfold check
  dsimp only
  rw [hd]
  cases found : d.store.find? req.id with
  | some i =>
    obtain ⟨r, hr, -, live⟩ := (sound.consistent.find?_eq_some_iff req.id i).mp found
    simp only [hr]
    exact (sound.settles_checkLive_carries hr live req update).mono fun p looked => carried.trans looked
  | none =>
    dsimp only
    split
    · split
      · exact settles_pure carried
      · split
        · exact settles_pure carried
        · rename_i i _ _ r _
          have adapted := carried.remake (d.adapted r.tag) (some r.tag) (.refl _) carried.tally
          apply settles_bind (Carries.drop _ i)
          intro e dropped
          exact settles_pure (adapted.trans dropped)
    · exact settles_pure carried

end Sound

/-- The side that an admitted object belongs to. -/
def landing (c : Arc) : Tier := if c.ghostHit.isSome then .frequent else .recent

/-- What an admission does to the counters and the records. -/
structure Admitted (c : Arc) (req : Request) (d : Arc) : Prop where
  bytes : ∀ m, d.bytesOf m = if m = (c.landing, false) then
    c.bytesOf m + (req.size + c.account.overhead) else c.bytesOf m
  word : IsWord (c.bytesOf (c.landing, false) + (req.size + c.account.overhead))
  account : d.account = c.account.charged req.size
  records : ∀ j v, d.store.get? j = some v →
    (∃ u, c.store.get? j = some u ∧ u.size = v.size ∧ u.expiry = v.expiry) ∨
      v.size = req.size ∧ v.expiry = req.ttl.map (req.time + ·)

theorem Sound.settles_insert_admitted {c : Arc} (h : c.Sound) {req : Request} (absent : c.absent req.id) :
    Settles .any (c.insert req) fun p => c.Admitted req p.2 := by
  have free := (h.consistent.find?_eq_none_iff req.id).mpr fun i r hr _ => absent i r hr
  unfold insert
  apply settles_bind (Account.settles_footprint c.account req.size)
  intro bytes hbytes
  obtain ⟨rfl, -⟩ := hbytes
  have inserted := (h.consistent.settles_insert (t := .any) c.account.now c.landing free).and
    (h.consistent.settles_insert_expiry (t := .any) c.account.now c.landing free)
  apply settles_bind inserted
  intro p stored
  obtain ⟨admits, expires⟩ := stored
  dsimp only
  apply settles_bind (settles_attach_bytes { c with store := p.2, ghostHit := none } (c.landing, false)
    p.1 (req.size + c.account.overhead))
  intro d attached
  obtain ⟨word, gained⟩ := attached
  rw [bytesOf_mk] at word gained
  rw [gained.account]
  apply settles_bind (Account.settles_charge c.account req.size)
  intro account charged
  apply settles_pure
  constructor
  · intro m
    rw [bytesOf_mk, gained.bytes, bytesOf_mk]
    split
    · rename_i e
      rw [e]
    · rfl
  · exact word
  · exact charged.1
  · intro j v hv
    obtain ⟨w, hw, size, expiry⟩ := gained.records j v hv
    obtain ⟨_, hr⟩ := admits.record
    by_cases e : j = p.1
    · subst e
      have late := expires w hw
      cases hr.symm.trans hw
      exact .inr ⟨size.symm, expiry.symm.trans late⟩
    · rw [← admits.other j e]
      exact .inl ⟨w, hw, size, expiry⟩

theorem Admitted.ranged {c d : Arc} {req : Request} (h : c.Admitted req d) (before : c.Ranged) :
    d.Ranged := by
  intro m
  rw [h.bytes]
  split
  · rename_i e
    rw [e]
    exact h.word
  · exact before m

theorem Admitted.total {c d : Arc} {req : Request} (h : c.Admitted req d) :
    d.total = c.total + (req.size + c.account.overhead) := by
  rw [total_eq, total_eq, h.bytes, h.bytes, h.bytes, h.bytes]
  cases c.landing <;> simp <;> omega

theorem Carries.remove (c : Arc) (id : Nat) : Settles .any (c.remove id) fun p => c.Carries p.2 := by
  unfold Arc.remove
  split
  · exact settles_pure (.refl c)
  · rename_i i _
    apply settles_bind (Carries.drop c i)
    intro d dropped
    exact settles_pure dropped

theorem Carries.evict (c : Arc) (req : Request) :
    Settles .any (c.evict req) fun p => c.Carries p.2 := by
  apply settles_bind (Carries.step c req.size)
  intro d stepped
  exact settles_pure stepped

theorem keeps_ranged {t : Tolerance} : Keeps t absent Sound Ranged where
  begun c req _ ranged k := by
    change IsWord (({ c with account := c.account.begun req } : Arc).bytesOf k)
    rw [bytesOf_mk]
    exact ranged k
  check c req update h ranged := by
    apply ((dependable.check c req update h).also (h.settles_check_carries req update)).mono
    intro p checked
    exact checked.2.ranged ranged
  evict c req h ranged := by
    apply ((dependable.evict c req h).also (Carries.evict c req)).mono
    intro p evicted
    exact evicted.2.ranged ranged
  insert c req h ranged absent room := by
    apply ((dependable.insert c req h absent room).also (h.settles_insert_admitted absent)).mono
    intro p inserted
    exact inserted.2.ranged ranged
  remove c id h ranged := by
    apply ((dependable.remove c id h).also (Carries.remove c id)).mono
    intro p removed
    exact removed.2.ranged ranged
  settle _ _ _ ranged := settles_pure ranged

end Arc
end CacheReplay
