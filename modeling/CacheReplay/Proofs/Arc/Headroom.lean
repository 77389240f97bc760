import CacheReplay.Proofs.Arc.Bytes

set_option autoImplicit false

namespace CacheReplay.Arc

theorem yields_attach (c : Arc) (k : Tier × Bool) (i : Slot) {n : Nat}
    (word : IsWord (c.bytesOf k + n)) :
    Yields (c.attach k.1 k.2 i n) (c.Shifted k (c.bytesOf k + n)) := by
  have answers : Yields (c.attach k.1 k.2 i n) fun _ => True := by
    have sum : addWord (c.list k.1 k.2).bytes n = .ok (c.bytesOf k + n) := addWord_of_isWord word
    unfold attach SizedChain.attach
    dsimp only
    rw [sum]
    exact ⟨_, rfl, trivial⟩
  exact (answers.and (settles_attach_bytes (t := .any) c k i n)).mono fun d attached => attached.2.2

namespace Lists
variable {c : Arc} {seqs : Tier × Bool → List Slot} {k : Tier × Bool} {i : Slot} {r : Record Tier}
  {loose : Option Slot} (L : c.Lists seqs loose) (hi : i ∈ seqs k) (hr : c.store.get? i = some r)
include L hi hr

/-- A record takes up bytes of the list that it is in. -/
theorem footprint_le : r.size + c.account.overhead ≤ c.bytesOf k := by
  have bytes := L.bytes k
  have split : held c.account.overhead c.store.records (seqs k) =
      (r.size + c.account.overhead) + held c.account.overhead c.store.records ((seqs k).erase i) := by
    rw [held, held, ← List.sum_map_erase _ hi, Arena.weight_of_get? hr]
  rw [bytesOf, bytes, split]
  exact Nat.le_add_right ..

theorem yields_detach : Yields (c.detach k.1 k.2 i (r.size + c.account.overhead)) fun d =>
    ∃ left, c.bytesOf k = r.size + c.account.overhead + left ∧ c.Shifted k left d := by
  have answers : Yields (c.detach k.1 k.2 i (r.size + c.account.overhead)) fun _ => True := by
    obtain ⟨order, records, e, -, -⟩ := L.family.unlink hi
    have left := subWord_of_le (L.footprint_le hi hr)
    unfold detach SizedChain.detach
    rw [show (c.list k.1 k.2).order.unlink c.store.records i = _ from e, ok_bind]
    dsimp only
    rw [show subWord (c.list k.1 k.2).bytes (r.size + c.account.overhead) = _ from left]
    exact ⟨_, rfl, trivial⟩
  exact (answers.and (settles_detach_bytes (t := .any) c k i _)).mono fun d detached => detached.2

theorem yields_move (m : Tier × Bool) (word : IsWord c.total) :
    Yields (c.detach k.1 k.2 i (r.size + c.account.overhead) >>= fun d =>
      d.attach m.1 m.2 i (r.size + c.account.overhead)) fun d => d.account = c.account := by
  apply yields_bind (L.yields_detach hi hr)
  intro d detached
  obtain ⟨left, split, lost⟩ := detached
  have sum := lost.total
  have part := d.bytesOf_le_total m
  apply (d.yields_attach m i (word.of_le (by omega))).mono
  intro e gained
  exact gained.account.trans lost.account

end Lists

namespace Sound
variable {c : Arc} (h : c.Sound) (word : IsWord c.total)
include h word

theorem footprint_eq {i : Slot} {r : Record Tier} (hr : c.store.get? i = some r) :
    c.account.footprint r.size = .ok (r.size + c.account.overhead) := by
  obtain ⟨seqs, L⟩ := h.lists
  have hi : i ∈ seqs r.place := (L.mem_iff _ i).mpr ⟨r, hr, rfl⟩
  have part := L.footprint_le hi hr
  exact Account.footprint_of_isWord (word.of_le (Nat.le_trans part (c.bytesOf_le_total _)))

theorem yields_drop (i : Slot) : Yields (c.drop i) fun _ => True := by
  unfold drop
  cases hr : c.store.get? i with
  | none => exact yields_pure trivial
  | some r =>
    obtain ⟨seqs, L⟩ := h.lists
    have hi : i ∈ seqs r.place := (L.mem_iff _ i).mpr ⟨r, hr, rfl⟩
    dsimp only
    rw [h.footprint_eq word hr, ok_bind]
    apply yields_bind ((L.yields_detach hi hr).and
      ((L.loosen (some i)).settles_detach (t := .arithmetic) hi hr))
    intro d detached
    obtain ⟨⟨left, -, lost⟩, L', -⟩ := detached
    rw [L'.consistent.delete_eq, ok_bind]
    dsimp only
    split
    · exact yields_pure trivial
    · rename_i live
      have release := h.balanced.release_eq (Store.liveSize?_of_live hr (by simpa using live))
      rw [lost.account, release]
      exact yields_pure trivial

theorem yields_dropLastGhost (tier : Tier) : Yields (c.dropLastGhost tier) fun _ => True := by
  unfold dropLastGhost
  split
  · exact yields_pure trivial
  · exact h.yields_drop word _

theorem yields_demoteLast (tier : Tier) : Yields (c.demoteLast tier) fun _ => True := by
  obtain ⟨seqs, L⟩ := h.lists
  have rep := L.family.represents (tier, false)
  unfold demoteLast
  cases back : (c.list tier false).order.back with
  | none => exact yields_pure trivial
  | some i =>
    have hi : i ∈ seqs (tier, false) := List.mem_of_getLast? (rep.back_eq ▸ back)
    obtain ⟨r, hr, place⟩ := (L.mem_iff _ i).mp hi
    have live : r.ghost = false := congrArg Prod.snd place
    have release := h.balanced.release_eq (Store.liveSize?_of_live hr live)
    simp only [hr, h.findGhost?_of_live hr live]
    rw [pure_bind, h.footprint_eq word hr, ok_bind, ← bind_assoc]
    apply yields_bind ((L.yields_move (k := (tier, false)) hi hr (tier, true) word).and
      ((L.loosen (some i)).settles_move (t := .arithmetic) (k := (tier, false)) (m := (tier, true)) hi hr))
    intro e done
    obtain ⟨account, moved, others, L', -⟩ := done
    obtain ⟨u, hu, hbare⟩ := moved.same.get? hr
    obtain ⟨l, rfl⟩ := Record.exists_links_of_bare hbare
    rw [L'.consistent.demote_eq hu live, ok_bind]
    dsimp only
    rw [account, release]
    exact yields_pure trivial

theorem yields_step {size : Nat} (room : IsWord (c.total + (size + c.account.overhead)))
    (doubled : IsWord (2 * c.account.capacity)) : Yields (c.step size) fun _ => True := by
  have after : ∀ tier, Yields (do
      let d ← c.dropLastGhost tier
      d.replace) fun _ => True := by
    intro tier
    have dropped := ((h.yields_dropLastGhost word tier).and (h.settles_dropLastGhost (t := .any) tier)).and
      (Carries.dropLastGhost c tier)
    apply yields_bind dropped
    intro d done
    obtain ⟨⟨-, sound, -⟩, carried⟩ := done
    exact sound.yields_demoteLast (word.of_le carried.total) _
  have full : Yields (c.recentFull size) fun _ => True := by
    unfold total at word room
    unfold recentFull
    rw [addWord_of_isWord (word.of_le (by omega)), ok_bind,
      Account.footprint_of_isWord (room.of_le (by omega)), ok_bind,
      addWord_of_isWord (room.of_le (by omega))]
    exact yields_pure trivial
  have directory : Yields c.directoryFull fun _ => True := by
    unfold total at word
    unfold directoryFull
    rw [addWord_of_isWord (word.of_le (by omega)), ok_bind, addWord_of_isWord (word.of_le (by omega)),
      ok_bind, addWord_of_isWord word, ok_bind, show mulWord 2 c.account.capacity = _ from if_pos doubled]
    exact yields_pure trivial
  unfold step
  split
  · exact h.yields_demoteLast word _
  · apply yields_bind full
    intro full _
    split
    · split
      · exact after .recent
      · split
        · exact h.yields_drop word _
        · exact h.yields_demoteLast word _
    · apply yields_bind directory
      intro full _
      dsimp only
      split
      · exact after .frequent
      · exact h.yields_demoteLast word _

theorem yields_promote {i : Slot} {r : Record Tier} (req : Request) (hr : c.store.get? i = some r)
    (live : r.ghost = false) : Yields (c.promote i r req) fun _ => True := by
  obtain ⟨seqs, L⟩ := h.lists
  have hi : i ∈ seqs (r.tag, false) := (L.mem_iff _ i).mpr ⟨r, hr, by rw [Record.place, live]⟩
  unfold promote
  rw [h.footprint_eq word hr, ok_bind]
  obtain ⟨L', hi'⟩ := L.retag hr req
  cases tag : r.tag with
  | recent =>
    rw [tag] at hi
    apply (L'.yields_move (k := (.recent, false)) hi hi' (.frequent, false) word).mono
    intro d _
    trivial
  | frequent =>
    rw [tag] at hi
    obtain ⟨order, records, e, -, -⟩ := L'.family.moveToFront hi
    dsimp only
    rw [show c.t2.order.moveToFront _ i = _ from e]
    exact yields_pure trivial

theorem yields_checkLive {i : Slot} {r : Record Tier} (req : Request) (update : Bool)
    (hr : c.store.get? i = some r) (live : r.ghost = false) (count : IsWord c.account.tally) :
    Yields (c.checkLive i r req update) fun _ => True := by
  unfold checkLive
  split
  · split
    · apply yields_bind ((h.yields_drop word i).and (h.settles_drop (t := .any) hr))
      intro d dropped
      obtain ⟨-, -, account, -⟩ := dropped
      rw [live, if_neg Bool.false_ne_true] at account
      have covers := h.balanced.covers (Store.liveSize?_of_live hr live)
      have expired : IsWord (d.account.expired + 1) := by
        rw [account]
        unfold Account.tally at count
        apply count.of_le
        change c.account.expired + 1 ≤ _
        omega
      rw [Account.recordExpired_of_isWord expired]
      exact yields_pure trivial
    · exact yields_pure trivial
  · dsimp only
    split
    · apply yields_bind (h.yields_promote word req hr live)
      intro d _
      exact yields_pure trivial
    · exact yields_pure trivial

theorem yields_check (req : Request) (update : Bool) (count : IsWord c.account.tally) :
    Yields (c.check req update) fun _ => True := by
  obtain ⟨d, hd, sound, account, less⟩ : ∃ d, (if update then { c with ghostHit := none } else c) = d ∧
      d.Sound ∧ d.account = c.account ∧ d.total = c.total := by
    cases update with
    | true => exact ⟨_, rfl, h.recount c.account rfl rfl rfl rfl c.target none, rfl, rfl⟩
    | false => exact ⟨_, rfl, h, rfl, rfl⟩
  unfold check
  dsimp only
  rw [hd]
  rw [← less] at word
  rw [← account] at count
  cases found : d.store.find? req.id with
  | some i =>
    obtain ⟨r, hr, -, live⟩ := (sound.consistent.find?_eq_some_iff req.id i).mp found
    simp only [hr]
    exact sound.yields_checkLive word req update hr live count
  | none =>
    dsimp only
    split
    · split
      · exact yields_pure trivial
      · split
        · exact yields_pure trivial
        · rename_i i _ _ r _
          have adapted := sound.recount d.account rfl rfl rfl rfl (d.adapted r.tag) (some r.tag)
          apply yields_bind (adapted.yields_drop word i)
          intro e _
          exact yields_pure trivial
    · exact yields_pure trivial

omit word in
theorem yields_insert {req : Request} (absent : c.absent req.id)
    (room : IsWord (c.total + (req.size + c.account.overhead))) (count : IsWord (c.account.tally + 1))
    (timely : req.Timely) : Yields (c.insert req) fun _ => True := by
  have free := (h.consistent.find?_eq_none_iff req.id).mpr fun i r hr _ => absent i r hr
  obtain ⟨p, hp⟩ := Store.exists_insert c.account.now c.landing free timely
  have part := c.bytesOf_le_total (c.landing, false)
  have occupied := h.occupied_eq
  unfold insert
  rw [Account.footprint_of_isWord (room.of_le (Nat.le_add_left ..)), ok_bind]
  dsimp only
  rw [show c.store.insert req c.account.now (if c.ghostHit.isSome then Tier.frequent else .recent) = _
    from hp, ok_bind]
  apply yields_bind (yields_attach { c with store := p.2, ghostHit := none } (c.landing, false) p.1
    (n := req.size + c.account.overhead) (room.of_le (by rw [bytesOf_mk]; omega)))
  intro d gained
  unfold total at room
  unfold Account.tally at count
  rw [gained.account, show c.account.charge req.size = _ from
    Account.charge_of_isWord (room.of_le (by omega)) (count.of_le (by omega))]
  exact yields_pure trivial

theorem yields_remove (id : Nat) : Yields (c.remove id) fun _ => True := by
  unfold remove
  split
  · exact yields_pure trivial
  · apply yields_bind (h.yields_drop word _)
    intro d _
    exact yields_pure trivial

end Sound

theorem Sound.settles_remove_terms {t : Tolerance} {c : Arc} (h : c.Sound) (id : Nat) :
    Settles t (c.remove id) fun p => c.account.SameTerms p.2.account := by
  unfold remove
  cases found : c.store.find? id with
  | none => exact settles_pure (.refl _)
  | some i =>
    obtain ⟨r, hr, -, live⟩ := (h.consistent.find?_eq_some_iff id i).mp found
    apply settles_bind (h.settles_drop hr)
    intro d dropped
    obtain ⟨-, account, -⟩ := dropped
    rw [live, if_neg Bool.false_ne_true] at account
    apply settles_pure
    rw [account]
    exact Account.sameTerms_released _ _

open EvictionPolicy

theorem dependable_builtWith {t : Tolerance} (capacity overhead : Nat) :
    Dependable t (fun (c : Arc) id => c.store.caches id = true) absent
      fun c => Sound c ∧ BuiltWith capacity overhead c :=
  dependable.keeping (dependable.keeps_builtWith capacity overhead fun _ id h =>
    h.settles_remove_terms id)

theorem roomy {capacity overhead : Nat} (doubled : IsWord (2 * capacity)) :
    Roomy total absent fun c => Sound c ∧ BuiltWith capacity overhead c where
  occupied c h := by
    have sum := h.1.occupied_eq
    unfold total
    change c.account.occupied ≤ _
    omega
  begun _ _ := rfl
  check c req update h count word := by
    apply ((h.1.yields_check word req update count).and (h.1.settles_check_carries req update)).mono
    intro p checked
    exact ⟨checked.2.tally, checked.2.total⟩
  evict c req h word := by
    have doubled : IsWord (2 * c.account.capacity) := by
      rw [show c.account.capacity = _ from h.2.capacity]
      exact doubled
    apply yields_bind ((h.1.yields_step (word.of_le (Nat.le_add_right ..)) word doubled).and
      (Carries.step c req.size))
    intro d stepped
    exact yields_pure ⟨stepped.2.tally, stepped.2.total⟩
  insert c req h absent room word count timely := by
    apply ((h.1.yields_insert absent word count timely).and
      (h.1.settles_insert_admitted absent)).mono
    intro p inserted
    obtain ⟨-, admitted⟩ := inserted
    constructor
    · change p.2.account.tally ≤ c.account.tally + 1
      rw [admitted.account]
      change c.account.objects + 1 + c.account.expired ≤ c.account.objects + c.account.expired + 1
      omega
    · exact Nat.le_of_eq admitted.total
  remove c id h word := by
    apply (((h.1.yields_remove word id).and (Carries.remove c id)).and
      (h.1.settles_remove_terms (t := .any) id)).mono
    intro p removed
    obtain ⟨⟨-, carried⟩, same⟩ := removed
    exact ⟨⟨carried.tally, carried.total⟩, same⟩
  settle c hit h := yields_pure (.refl c)

/-- A run from an empty cache answers if its counters can stay in range. -/
theorem exists_run {capacity overhead : Nat} {ops : List Operation} (doubled : IsWord (2 * capacity))
    (room : IsWord (ops.map (Operation.cost overhead)).sum) (timely : ∀ op ∈ ops, op.Timely) :
    ∃ c, run (empty capacity overhead) ops = .ok c := by
  apply (roomy doubled).exists_run (dependable_builtWith (t := .any) capacity overhead)
    (fun c h => h.2.overhead) ⟨sound_empty capacity overhead, rfl, rfl⟩ ?_ timely
  constructor
  · exact Nat.le_refl 0
  · change IsWord (0 + _)
    rw [Nat.zero_add]
    exact room
  · change IsWord (0 + _)
    rw [Nat.zero_add]
    exact room

end CacheReplay.Arc
