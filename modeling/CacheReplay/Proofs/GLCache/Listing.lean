import CacheReplay.Proofs.GLCache.Merge

set_option autoImplicit false

namespace CacheReplay.GLCache

variable {t : Tolerance}

section
variable {s s' : Store ObjectTag} {l : List Slot} {i : Slot}

theorem heldActive_exchange (nodup : l.Nodup) (hi : i ∈ l)
    (off : ∀ j, j ≠ i → s'.live? j = s.live? j) :
    heldActive s' l + heldActive s [i] = heldActive s l + heldActive s' [i] := by
  obtain ⟨a, b, rfl⟩ := List.append_of_mem hi
  have out : i ∉ a ∧ i ∉ b := by
    rw [List.nodup_middle, List.nodup_cons, List.mem_append, not_or] at nodup
    exact nodup.1
  have front : heldActive s' a = heldActive s a :=
    heldActive_congr fun j hj => by rw [off j fun e => out.1 (e ▸ hj)]
  have back : heldActive s' b = heldActive s b :=
    heldActive_congr fun j hj => by rw [off j fun e => out.2 (e ▸ hj)]
  have split : ∀ s : Store ObjectTag, heldActive s (a ++ i :: b) =
      heldActive s a + (heldActive s [i] + heldActive s b) := fun s => by
    rw [← heldActive_append, ← heldActive_append]
    rfl
  rw [split, split, front, back]
  omega

theorem held_filter (overhead : Nat) (nodup : l.Nodup) (hi : i ∈ l) :
    heldBytes s overhead l = heldBytes s overhead (l.filter (· != i)) + heldBytes s overhead [i] ∧
      heldActive s l = heldActive s (l.filter (· != i)) + heldActive s [i] := by
  obtain ⟨a, b, rfl⟩ := List.append_of_mem hi
  have out : i ∉ a ∧ i ∉ b := by
    rw [List.nodup_middle, List.nodup_cons, List.mem_append, not_or] at nodup
    exact nodup.1
  have keep : ∀ m : List Slot, i ∉ m → m.filter (· != i) = m := by
    intro m hm
    rw [List.filter_eq_self]
    intro j hj
    simpa using fun e : j = i => hm (e ▸ hj)
  have rest : (a ++ i :: b).filter (· != i) = a ++ b := by
    rw [List.filter_append, List.filter_cons, keep a out.1, keep b out.2]
    simp
  rw [rest, heldBytes_append, heldBytes_append, heldActive_append, heldActive_append]
  have bytes := heldBytes_append s overhead [i] b
  have active := heldActive_append s [i] b
  rw [List.singleton_append] at bytes active
  omega

end

namespace Contents

theorem Sound.settles_openLast {c : Contents} (h : c.Sound) {k : Nat} (hk : k < liveBuckets)
    (time now : Int) :
    Settles t (do
      let (i, a) ← c.table.allocate k time now
      pure (i, a.append i)) fun p => Table.Opened p.1 c.table p.2 := by
  refine settles_bind (h.strung.settles_allocate k time now) fun p made => ?_
  obtain ⟨i, a⟩ := p
  obtain ⟨loose, out, fresh, hs, others, -, -, ranking, size⟩ := made
  dsimp only at loose out fresh hs others ranking size ⊢
  have hk' : k < a.buckets.size := by
    rw [loose.size_buckets]
    exact Nat.lt_succ_of_lt hk
  obtain ⟨placed, same, ranking', size'⟩ := loose.append out hs hk'
  exact settles_pure (.of_placed h.ranked fresh hs (Nat.ne_of_lt hk) ⟨rfl, rfl, rfl, rfl, rfl⟩ others placed
    same (ranking'.trans ranking) (size'.trans size))

/--
One record changes, and with it the segment that lists it. Segments that list
other records are filled as before.
-/
theorem Sound.touch {c : Contents} (h : c.Sound) {i k : Slot} {g : Segment} {f : Segment → Segment}
    {store : Store ObjectTag} {account : Account} (hg : c.table.get? k = some g)
    (home : g.bucket ≠ quarantine) (place : (f g).links = g.links ∧ (f g).bucket = g.bucket)
    (rank : (f g).rank = g.rank ∧ (f g).nextRanked = g.nextRanked)
    (own : ∀ r, c.store.live? i = some r → r.tag.segment = k)
    (other : ∀ j, j ≠ i → store.live? j = c.store.live? j)
    (overhead : account.overhead = c.account.overhead)
    (ledger : Ledger store account (Function.update c.table.liveObjects k (f g).objects.toList)
      c.table.ghostSlots)
    (filled : (f g).Filled c.table.segmentSize store c.account.overhead) :
    Sound ⟨c.table.modify k f, store, account⟩ := by
  have only : ∀ u, c.table.get? k = some u → u = g := by
    intro u hu
    rw [hg] at hu
    exact (Option.some.inj hu).symm
  obtain ⟨lists, slots⟩ := Table.lists_modify hg home (f := f) place.2
  refine ⟨(h.strung.modify k fun u hu => ?_).listed, ?_, ?_, fun m u hu live => ?_⟩
  · rw [only u hu]
    exact place
  · refine h.ranked.of_same (Arena.same_modify c.table.segments k fun u hu => ?_) rfl
    rw [only u hu, place.2, rank.1, rank.2]
  · dsimp only
    rw [lists, slots]
    exact ledger
  · dsimp only at hu ⊢
    rw [overhead]
    rw [Table.get?_modify] at hu
    split at hu
    · rename_i e
      rw [← e, hg] at hu
      cases hu
      exact filled
    · rename_i apart
      refine (h.filled m u hu live).congr fun j hj => other j fun e => apart ?_
      rw [← Table.liveObjects_of_live hu live, h.ledger.live] at hj
      obtain ⟨r, hr, at_m⟩ := hj
      rw [e] at hr
      rw [← own r hr, at_m]

theorem Sound.hit {c : Contents} (h : c.Sound) {i : Slot} {r : Record ObjectTag}
    (hr : c.store.live? i = some r) {g u : Segment} (hg : c.table.get? r.tag.segment = some g)
    {f : Record ObjectTag → Record ObjectTag}
    (record : (f r).id = r.id ∧ (f r).size = r.size ∧ (f r).ghost = r.ghost)
    (tag : (f r).tag.segment = r.tag.segment ∧ (f r).tag.active = true)
    (place : u.links = g.links ∧ u.bucket = g.bucket)
    (rank : u.rank = g.rank ∧ u.nextRanked = g.nextRanked)
    (counts : u.objects = g.objects ∧ u.bytes = g.bytes ∧
      u.active = if r.tag.active then g.active else g.active + 1) :
    Sound { c with
      table := c.table.modify r.tag.segment fun _ => u
      store := c.store.modify i f } := by
  obtain ⟨v, hv, home, hi⟩ := h.segment_of_live hr
  cases hg.symm.trans hv
  have some := (c.store.live?_eq_some_iff i r).mp hr
  have only : ∀ w, c.store.get? i = .some w → w = r := by
    intro w hw
    rw [some.1] at hw
    exact (Option.some.inj hw).symm
  have live := c.store.live?_modify i (f := f) fun w hw => by rw [only w hw]; exact record.2.2
  have size := c.store.liveSize?_modify i (f := f) fun w hw => by rw [only w hw]; exact record.2
  have other : ∀ j, j ≠ i → (c.store.modify i f).live? j = c.store.live? j := fun j hj => by
    rw [live, if_neg (Ne.symm hj)]
  have self := live i
  rw [if_pos rfl, hr, Option.map_some] at self
  refine h.touch (i := i) hg home place rank (fun w hw => ?_) other rfl ?_ ?_
  · rw [hr] at hw
    cases hw
    rfl
  · rw [counts.1, (Table.update_lists_of_live hg home).1]
    refine h.ledger.modify hr record h.ledger.nodup fun k j => ?_
    rw [tag.1]
    exact h.ledger.mem_modify hr k j
  · have filled := h.filled _ g hg home
    have nodup := h.ledger.nodup r.tag.segment
    rw [Table.liveObjects_of_live hg home] at nodup
    refine ⟨?_, ?_, ?_⟩
    · rw [counts.1]
      exact filled.fits
    · rw [counts.2.1, counts.1, filled.bytes]
      exact (heldBytes_congr _ fun j _ => size j).symm
    · have moved := heldActive_exchange nodup hi other
      rw [heldActive_singleton hr, heldActive_singleton self, tag.2] at moved
      rw [counts.2.2, counts.1, filled.active]
      split <;> simp_all

/-- An admitted object is listed by a segment that has room for it. -/
theorem Sound.push {c : Contents} (h : c.Sound) {req : Request} {now : Int} {tag : ObjectTag} {i : Slot}
    {store : Store ObjectTag} (admits : c.store.Admits req now tag i store)
    (word : IsWord (c.account.charged req.size).occupied)
    (room : c.account.occupied + (req.size + c.account.overhead) ≤ c.account.capacity) {g : Segment}
    (hg : c.table.get? tag.segment = some g) (home : g.bucket ≠ quarantine)
    (fits : g.objects.size < c.table.segmentSize) (passive : tag.active = false) {bytes : Nat}
    (hbytes : bytes = g.bytes + (req.size + c.account.overhead)) :
    Sound ⟨c.table.modify tag.segment fun g => { g with objects := g.objects.push i, bytes },
      store, c.account.charged req.size⟩ := by
  obtain ⟨expiry, live⟩ := admits.live?
  have vacant : c.store.live? i = none := Store.live?_of_none admits.free
  have other : ∀ j, j ≠ i → store.live? j = c.store.live? j := fun j hj => by
    rw [live, if_neg (Ne.symm hj)]
  have self := live i
  rw [if_pos rfl] at self
  have out : ∀ k, i ∉ c.table.liveObjects k := by
    intro k hi
    obtain ⟨r, hr, -⟩ := (h.ledger.live k i).mp hi
    rw [vacant] at hr
    cases hr
  have listed := Table.liveObjects_of_live hg home
  refine h.touch (i := i) hg home (f := fun g => { g with objects := g.objects.push i, bytes })
    ⟨rfl, rfl⟩ ⟨rfl, rfl⟩ (fun r hr => ?_) other rfl ?_ ?_
  · rw [vacant] at hr
    cases hr
  · dsimp only
    rw [Array.toList_push]
    refine h.ledger.gain admits word room (fun k => nodup_update (fun k _ => h.ledger.nodup k) ?_ k)
      fun k j => ?_
    · rw [← List.concat_eq_append, List.nodup_concat, ← listed]
      exact ⟨out _, h.ledger.nodup _⟩
    · rw [mem_update]
      by_cases at_segment : k = tag.segment
      · rw [if_pos at_segment, at_segment, listed, List.mem_append, List.mem_singleton]
        by_cases e : i = j
        · simp [e]
        · simp [e, Ne.symm e]
      · rw [if_neg at_segment]
        by_cases e : i = j
        · rw [if_pos e, ← e]
          exact iff_of_false (out k) (Ne.symm at_segment)
        · rw [if_neg e]
  · have filled := (h.filled _ g hg home).congr fun j hj => other j fun e => by
      rw [← listed, e] at hj
      exact out _ hj
    refine ⟨?_, ?_, ?_⟩
    · dsimp only
      rw [Array.size_push]
      exact fits
    · dsimp only
      rw [hbytes, Array.toList_push, heldBytes_append, heldBytes_singleton self, filled.bytes]
    · dsimp only
      rw [Array.toList_push, heldActive_append, heldActive_singleton self, ← filled.active, passive]
      rfl

theorem Sound.pull {c : Contents} (h : c.Sound) {i : Slot} {r : Record ObjectTag}
    (hr : c.store.live? i = some r) {g : Segment} (hg : c.table.get? r.tag.segment = some g)
    {bytes active : Nat} (hbytes : g.bytes = (r.size + c.account.overhead) + bytes)
    (hactive : g.active = (if r.tag.active then 1 else 0) + active) :
    Sound ⟨c.table.modify r.tag.segment fun g =>
        { g with objects := g.objects.filter (· != i), bytes, active },
      c.store.without i, c.account.released r.size⟩ := by
  obtain ⟨v, hv, home, hi⟩ := h.segment_of_live hr
  cases hg.symm.trans hv
  have some := (c.store.live?_eq_some_iff i r).mp hr
  obtain ⟨consistent, get⟩ := h.ledger.consistent.without some.1
  have live := h.ledger.consistent.live?_without some.1
  have other : ∀ j, j ≠ i → (c.store.without i).live? j = c.store.live? j := fun j hj => by
    rw [live, if_neg (Ne.symm hj)]
  have listed := Table.liveObjects_of_live hg home
  have nodup := h.ledger.nodup r.tag.segment
  rw [listed] at nodup
  refine h.touch (i := i) hg home (f := fun g =>
    { g with objects := g.objects.filter (· != i), bytes, active }) ⟨rfl, rfl⟩ ⟨rfl, rfl⟩
    (fun u hu => ?_) other rfl ?_ ?_
  · rw [hr] at hu
    cases hu
    rfl
  · dsimp only
    rw [Array.toList_filter]
    refine h.ledger.lose hr consistent live
      (fun k => nodup_update (fun k _ => h.ledger.nodup k) (nodup.filter _) k) (fun k j => ?_)
      fun j u hu ghost => ?_
    · rw [mem_update]
      by_cases at_segment : k = r.tag.segment
      · rw [if_pos at_segment, at_segment, listed, List.mem_filter, bne_iff_ne]
      · rw [if_neg at_segment]
        refine (and_iff_left_of_imp fun hj e => at_segment ?_).symm
        obtain ⟨u, hu, at_k⟩ := (h.ledger.live k j).mp hj
        rw [e, hr] at hu
        cases hu
        exact at_k.symm
    · rw [get] at hu
      split at hu
      · cases hu
      · exact h.ledger.ghost j u hu ghost
  · have filled := h.filled _ g hg home
    have shares := held_filter (s := c.store) c.account.overhead nodup hi
    rw [heldBytes_singleton hr, heldActive_singleton hr, ← filled.bytes, ← filled.active] at shares
    have kept : ∀ j ∈ g.objects.toList.filter (· != i), (c.store.without i).live? j = c.store.live? j := by
      intro j hj
      rw [List.mem_filter, bne_iff_ne] at hj
      exact other j hj.2
    have bytes_kept : heldBytes (c.store.without i) c.account.overhead (g.objects.toList.filter (· != i)) =
        heldBytes c.store c.account.overhead (g.objects.toList.filter (· != i)) :=
      heldBytes_congr _ fun j hj => by rw [Store.liveSize?, kept j hj]; rfl
    have active_kept : heldActive (c.store.without i) (g.objects.toList.filter (· != i)) =
        heldActive c.store (g.objects.toList.filter (· != i)) :=
      heldActive_congr fun j hj => by rw [kept j hj]
    refine ⟨Nat.le_trans Array.size_filter_le filled.fits, ?_, ?_⟩
    · dsimp only
      rw [Array.toList_filter, bytes_kept]
      omega
    · dsimp only
      rw [Array.toList_filter, active_kept]
      omega

theorem Sound.forget {c : Contents} (h : c.Sound) {i : Slot} {r : Record ObjectTag}
    (hr : c.store.get? i = some r) (ghost : r.ghost = true) :
    Sound { c with store := c.store.without i } where
  strung := h.strung
  ranked := h.ranked
  ledger := h.ledger.forget hr ghost
  filled k g hg home :=
    (h.filled k g hg home).congr fun j _ => h.ledger.consistent.live?_forget hr ghost j

theorem Sound.opened {c : Contents} (h : c.Sound) {i : Slot} {b : Table}
    (opened : Table.Opened i c.table b) : Sound { c with table := b } where
  strung := opened.strung
  ranked := opened.ranked
  ledger := by
    dsimp only
    rw [opened.lists_eq.1, opened.lists_eq.2]
    exact h.ledger
  filled k w hw home := by
    dsimp only at hw ⊢
    by_cases e : k = i
    · obtain ⟨u, hu, -, objects, bytes, active, -⟩ := opened.segment
      rw [e] at hw
      cases hu.symm.trans hw
      exact ⟨by rw [objects]; exact Nat.zero_le _, by rw [objects, bytes]; rfl, by rw [objects, active]; rfl⟩
    · obtain ⟨v, hv, live, same⟩ := Table.exists_live_of_cargo (opened.others k e) hw home
      rw [opened.segmentSize]
      exact (h.filled k v hv live).of_cargo same

end Contents
end CacheReplay.GLCache
