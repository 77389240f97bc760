import CacheReplay.GLCache.Merge
import CacheReplay.Proofs.Account
import CacheReplay.Proofs.GLCache.Ranking

set_option autoImplicit false

namespace CacheReplay.GLCache

structure Ledger (s : Store ObjectTag) (a : Account) (lists ghosts : Slot → List Slot) : Prop where
  consistent : s.Consistent
  balanced : a.Balanced s
  within : a.occupied ≤ a.capacity
  nodup : ∀ k, (lists k).Nodup
  live : ∀ k i, i ∈ lists k ↔ ∃ r, s.live? i = some r ∧ r.tag.segment = k
  ghost : ∀ i r, s.get? i = some r → r.ghost = true → i ∈ ghosts r.tag.segment

namespace Ledger
variable {t : Tolerance} {s s' : Store ObjectTag} {a : Account} {lists lists' : Slot → List Slot}
  {ghosts ghosts' : Slot → List Slot} {i : Slot} {r : Record ObjectTag}

theorem mem_list (h : Ledger s a lists ghosts) (hr : s.live? i = some r) : i ∈ lists r.tag.segment :=
  (h.live _ i).mpr ⟨r, hr, rfl⟩

/-- A live record leaves; what becomes of ghosts is up to `ghost`. -/
theorem lose (h : Ledger s a lists ghosts) (hr : s.live? i = some r) (consistent : s'.Consistent)
    (off : ∀ j, s'.live? j = if i = j then none else s.live? j)
    (nodup : ∀ k, (lists' k).Nodup) (mem : ∀ k j, j ∈ lists' k ↔ j ∈ lists k ∧ j ≠ i)
    (ghost : ∀ j u, s'.get? j = some u → u.ghost = true → j ∈ ghosts' u.tag.segment) :
    Ledger s' (a.released r.size) lists' ghosts' where
  consistent := consistent
  balanced := by
    refine h.balanced.released (i := i) ?_ fun j => ?_
    · rw [Store.liveSize?, hr]
      rfl
    · rw [Store.liveSize?, off]
      split <;> rfl
  within := by
    have within := h.within
    show a.occupied - (r.size + a.overhead) ≤ a.capacity
    omega
  nodup := nodup
  live k j := by
    rw [mem, h.live, off]
    by_cases e : i = j
    · subst e
      simp
    · rw [if_neg e]
      exact and_iff_left (Ne.symm e)
  ghost := ghost

theorem modify (h : Ledger s a lists ghosts) (hr : s.live? i = some r)
    {f : Record ObjectTag → Record ObjectTag}
    (hf : (f r).id = r.id ∧ (f r).size = r.size ∧ (f r).ghost = r.ghost)
    (nodup : ∀ k, (lists' k).Nodup)
    (mem : ∀ k j, j ∈ lists' k ↔ if i = j then (f r).tag.segment = k else j ∈ lists k) :
    Ledger (s.modify i f) a lists' ghosts := by
  have some := (s.live?_eq_some_iff i r).mp hr
  have only : ∀ u, s.get? i = .some u → u = r := by
    intro u hu
    rw [some.1] at hu
    exact (Option.some.inj hu).symm
  have off := s.live?_modify i (f := f) fun u hu => by rw [only u hu]; exact hf.2.2
  refine ⟨?_, ?_, h.within, nodup, fun k j => ?_, fun j u hu ghost => ?_⟩
  · exact h.consistent.modify i fun u hu => by rw [only u hu]; exact ⟨hf.1, hf.2.2⟩
  · refine h.balanced.keep fun j => s.liveSize?_modify i (fun u hu => ?_) j
    rw [only u hu]
    exact hf.2
  · rw [mem, off]
    split
    · rename_i e
      subst e
      simp [hr]
    · exact h.live k j
  · rw [Store.get?_modify] at hu
    split at hu
    · rename_i e
      subst e
      rw [some.1] at hu
      cases hu
      rw [hf.2.2, some.2] at ghost
      cases ghost
    · exact h.ghost j u hu ghost

/-- Records whose segments stay the same stay where they are listed. -/
theorem mem_modify (h : Ledger s a lists ghosts) (hr : s.live? i = some r) (k j : Slot) :
    j ∈ lists k ↔ if i = j then r.tag.segment = k else j ∈ lists k := by
  split
  · rename_i e
    subst e
    rw [h.live]
    simp [hr]
  · rfl

theorem gain (h : Ledger s a lists ghosts) {req : Request} {now : Int} {tag : ObjectTag}
    (admits : s.Admits req now tag i s') (word : IsWord (a.charged req.size).occupied)
    (room : a.occupied + (req.size + a.overhead) ≤ a.capacity)
    (nodup : ∀ k, (lists' k).Nodup)
    (mem : ∀ k j, j ∈ lists' k ↔ if i = j then tag.segment = k else j ∈ lists k) :
    Ledger s' (a.charged req.size) lists' ghosts where
  consistent := admits.consistent
  balanced := h.balanced.charged (Store.liveSize?_of_none admits.free) admits.liveSize? word
  within := room
  nodup := nodup
  live k j := by
    obtain ⟨expiry, get⟩ := admits.live?
    rw [mem, get]
    split
    · simp
    · exact h.live k j
  ghost j u hu ghost := by
    by_cases e : j = i
    · obtain ⟨expiry, hr⟩ := admits.record
      rw [e, hr] at hu
      cases hu
      cases ghost
    · rw [admits.other j e] at hu
      exact h.ghost j u hu ghost

theorem keep (h : Ledger s a lists ghosts) (consistent : s'.Consistent)
    (off : ∀ j, s'.live? j = s.live? j)
    (ghost : ∀ j u, s'.get? j = some u → u.ghost = true → j ∈ ghosts' u.tag.segment) :
    Ledger s' a lists ghosts' where
  consistent := consistent
  balanced := by
    refine h.balanced.keep fun j => ?_
    rw [Store.liveSize?, off]
    rfl
  within := h.within
  nodup := h.nodup
  live k j := by
    rw [off]
    exact h.live k j
  ghost := ghost

theorem forget (h : Ledger s a lists ghosts) (hr : s.get? i = some r) (ghost : r.ghost = true) :
    Ledger (s.without i) a lists ghosts := by
  have off := h.consistent.live?_forget hr ghost
  obtain ⟨consistent, get⟩ := h.consistent.without hr
  refine h.keep consistent off fun j u hu ghostly => ?_
  rw [get] at hu
  split at hu
  · cases hu
  · exact h.ghost j u hu ghostly

theorem fork (h : Ledger s a lists ghosts) (hr : s.live? i = some r) :
    ∃ j, (s.forkGhost i).1 = some j ∧ (∀ k, (s.forkGhost i).2.live? k = s.live? k) ∧
      ∀ ghosts' : Slot → List Slot, (∀ k, ∀ i ∈ ghosts k, i ∈ ghosts' k) →
        j ∈ ghosts' r.tag.segment → Ledger (s.forkGhost i).2 a lists ghosts' := by
  have some := (s.live?_eq_some_iff i r).mp hr
  have off := h.consistent.live?_forkGhost some.1 some.2
  obtain ⟨j, fst, -, consistent, self, other⟩ := h.consistent.forkGhost some.1 some.2
  refine ⟨j, fst, off, fun ghosts' sub hj => h.keep consistent off fun k u hu ghost => ?_⟩
  by_cases e : k = j
  · rw [e, self] at hu
    cases hu
    rw [e]
    exact hj
  · rw [other k e] at hu
    split at hu
    · cases hu
    · exact sub _ k (h.ghost k u hu ghost)

end Ledger

section held

/-- The footprints of the live records at some handles. -/
def heldBytes (s : Store ObjectTag) (overhead : Nat) (l : List Slot) : Nat :=
  (l.map fun i => (s.liveSize? i).elim 0 (· + overhead)).sum

def heldActive (s : Store ObjectTag) (l : List Slot) : Nat :=
  l.countP fun i => (s.live? i).any (·.tag.active)

variable {s s' : Store ObjectTag} {l : List Slot}

theorem heldBytes_congr (overhead : Nat)
    (h : ∀ i ∈ l, s'.liveSize? i = s.liveSize? i) :
    heldBytes s' overhead l = heldBytes s overhead l :=
  congrArg List.sum (List.map_congr_left fun i hi => by rw [h i hi])

theorem heldBytes_le {a : Account} (balanced : a.Balanced s) (nodup : l.Nodup) :
    heldBytes s a.overhead l ≤ a.occupied := by
  rw [balanced.occupied]
  refine Nat.le_trans (Nat.le_of_eq ?_) (s.records.sum_le_total (Record.liveBytes a.overhead) nodup)
  exact congrArg List.sum (List.map_congr_left fun i _ => (s.weight_liveBytes a.overhead i).symm)

theorem heldActive_congr
    (h : ∀ i ∈ l, (s'.live? i).map (·.tag.active) = (s.live? i).map (·.tag.active)) :
    heldActive s' l = heldActive s l := by
  refine List.countP_congr fun i hi => ?_
  have read : ∀ o : Option (Record ObjectTag),
      o.any (·.tag.active) = (o.map (·.tag.active)).getD false := by
    intro o
    cases o <;> rfl
  rw [read, read, h i hi]

end held

/-- A segment has room for what it lists and counts it. -/
structure Segment.Filled (g : Segment) (capacity : Nat) (s : Store ObjectTag) (overhead : Nat) :
    Prop where
  fits : g.objects.size ≤ capacity
  bytes : g.bytes = heldBytes s overhead g.objects.toList
  active : g.active = heldActive s g.objects.toList

theorem Segment.Filled.congr {g : Segment} {capacity overhead : Nat} {s s' : Store ObjectTag}
    (h : g.Filled capacity s overhead) (same : ∀ i ∈ g.objects.toList, s'.live? i = s.live? i) :
    g.Filled capacity s' overhead where
  fits := h.fits
  bytes := h.bytes.trans (heldBytes_congr overhead fun i hi => by rw [Store.liveSize?, same i hi]; rfl).symm
  active := h.active.trans (heldActive_congr fun i hi => by rw [same i hi]).symm

def Segment.listed (g : Segment) : Nat × Array Slot := (g.bucket, g.objects)

def Segment.listing (g : Segment) : (Nat × Array Slot) × Nat × Nat := (g.listed, g.bytes, g.active)

namespace Table

def liveObjects (a : Table) (k : Slot) : List Slot :=
  match a.get? k with
  | some g => if g.bucket = quarantine then [] else g.objects.toList
  | none => []

/-- The slots that a quarantined segment lists. -/
def ghostSlots (a : Table) (k : Slot) : List Slot :=
  match a.get? k with
  | some g => if g.bucket = quarantine then g.objects.toList else []
  | none => []

section
variable {a b : Table} {k : Slot} {g : Segment}

theorem liveObjects_of_live (hg : a.get? k = some g) (home : g.bucket ≠ quarantine) :
    a.liveObjects k = g.objects.toList := by
  simp [liveObjects, hg, home]

theorem liveObjects_of_retired (hg : a.get? k = some g) (home : g.bucket = quarantine) :
    a.liveObjects k = [] := by
  simp [liveObjects, hg, home]

theorem liveObjects_of_none (hg : a.get? k = none) : a.liveObjects k = [] := by
  simp [liveObjects, hg]

theorem ghostSlots_of_live (hg : a.get? k = some g) (home : g.bucket ≠ quarantine) :
    a.ghostSlots k = [] := by
  simp [ghostSlots, hg, home]

theorem ghostSlots_of_retired (hg : a.get? k = some g) (home : g.bucket = quarantine) :
    a.ghostSlots k = g.objects.toList := by
  simp [ghostSlots, hg, home]

theorem ghostSlots_of_none (hg : a.get? k = none) : a.ghostSlots k = [] := by
  simp [ghostSlots, hg]

theorem update_lists_of_live (hg : a.get? k = some g) (home : g.bucket ≠ quarantine) :
    Function.update a.liveObjects k g.objects.toList = a.liveObjects ∧
      Function.update a.ghostSlots k [] = a.ghostSlots := by
  rw [← liveObjects_of_live hg home, ← ghostSlots_of_live hg home]
  exact ⟨Function.update_eq_self _ _, Function.update_eq_self _ _⟩

theorem objectsOf_of_get? (hg : a.get? k = some g) : a.objectsOf k = g.objects.toList := by
  rw [objectsOf, hg]
  rfl

theorem exists_of_mem_liveObjects {i : Slot} (hi : i ∈ a.liveObjects k) :
    ∃ g, a.get? k = some g ∧ g.bucket ≠ quarantine ∧ i ∈ g.objects.toList := by
  cases hg : a.get? k with
  | none =>
    rw [liveObjects_of_none hg] at hi
    cases hi
  | some g =>
    by_cases home : g.bucket = quarantine
    · rw [liveObjects_of_retired hg home] at hi
      cases hi
    · rw [liveObjects_of_live hg home] at hi
      exact ⟨g, rfl, home, hi⟩

theorem exists_of_mem_ghostSlots {i : Slot} (hi : i ∈ a.ghostSlots k) :
    ∃ g, a.get? k = some g ∧ g.bucket = quarantine ∧ i ∈ g.objects.toList := by
  cases hg : a.get? k with
  | none =>
    rw [ghostSlots_of_none hg] at hi
    cases hi
  | some g =>
    by_cases home : g.bucket = quarantine
    · rw [ghostSlots_of_retired hg home] at hi
      exact ⟨g, rfl, home, hi⟩
    · rw [ghostSlots_of_live hg home] at hi
      cases hi

theorem listed_congr (h : (b.get? k).map Segment.listed = (a.get? k).map Segment.listed) :
    b.liveObjects k = a.liveObjects k ∧ b.ghostSlots k = a.ghostSlots k := by
  unfold liveObjects ghostSlots
  cases ha : a.get? k <;> cases hb : b.get? k <;> rw [ha, hb] at h <;> simp [Segment.listed] at h
  · exact ⟨rfl, rfl⟩
  · simp [h]

theorem lists_modify (hg : a.get? k = some g) (home : g.bucket ≠ quarantine) {f : Segment → Segment}
    (same : (f g).bucket = g.bucket) :
    (a.modify k f).liveObjects = Function.update a.liveObjects k (f g).objects.toList ∧
      (a.modify k f).ghostSlots = a.ghostSlots := by
  have get := fun j => a.get?_modify k j f
  have self := get k
  rw [if_pos rfl, hg, Option.map_some] at self
  have home' : (f g).bucket ≠ quarantine := by
    rw [same]
    exact home
  have other : ∀ j, j ≠ k → _ := fun j hj =>
    listed_congr (a := a) (b := a.modify k f) (congrArg _ ((get j).trans (if_neg (Ne.symm hj))))
  constructor
  · funext j
    by_cases e : j = k
    · rw [e, Function.update_self, liveObjects_of_live self home']
    · rw [Function.update_of_ne e]
      exact (other j e).1
  · funext j
    by_cases e : j = k
    · rw [e, ghostSlots_of_live self home', ghostSlots_of_live hg home]
    · exact (other j e).2

end

end Table

namespace Contents

structure Sound (c : Contents) : Prop where
  strung : c.table.Strung c.table.chainOf none
  ranked : c.table.Ranked
  ledger : Ledger c.store c.account c.table.liveObjects c.table.ghostSlots
  filled : ∀ k g, c.table.get? k = some g → g.bucket ≠ quarantine →
    g.Filled c.table.segmentSize c.store c.account.overhead

theorem sound_empty (capacity overhead segmentSize : Nat) :
    (empty capacity overhead segmentSize).Sound where
  strung := (Table.strung_empty segmentSize).listed
  ranked := Table.ranked_empty segmentSize
  ledger :=
    ⟨Store.consistent_empty, Account.balanced_empty capacity overhead, Nat.zero_le _,
      fun k => by simp [empty, Table.liveObjects, Table.get?, Table.empty, Arena.get?_empty],
      fun k i => by simp [empty, Table.liveObjects, Table.get?, Table.empty, Arena.get?_empty,
        Store.live?, Store.get?, Store.empty],
      fun i r hr => by simp [empty, Store.get?, Store.empty, Arena.get?_empty] at hr⟩
  filled k g hg := by simp [empty, Table.get?, Table.empty, Arena.get?_empty] at hg

/-- Changes to segments that touch neither what they list nor what they count. -/
theorem Sound.retable {c : Contents} (h : c.Sound) {b : Table} {seqs : Nat → List Slot}
    (strung : b.Strung seqs none) (ranked : b.Ranked)
    (same : c.table.segments.Same Segment.listing b.segments)
    (size : b.segmentSize = c.table.segmentSize) : Sound { c with table := b } where
  strung := strung.listed
  ranked := ranked
  ledger := by
    have listed := fun k => Table.listed_congr (same.of_comp (g := Segment.listed) Prod.fst (fun _ => rfl) k)
    have lists : b.liveObjects = c.table.liveObjects := funext fun k => (listed k).1
    have ghosts : b.ghostSlots = c.table.ghostSlots := funext fun k => (listed k).2
    rw [lists, ghosts]
    exact h.ledger
  filled k g hg home := by
    obtain ⟨u, hu, e⟩ := same.symm.get? hg
    simp only [Segment.listing, Segment.listed, Prod.mk.injEq] at e
    obtain ⟨⟨bucket, objects⟩, bytes, active⟩ := e
    have filled := h.filled k u hu (by rw [bucket]; exact home)
    rw [size]
    exact ⟨by rw [← objects]; exact filled.fits, by rw [← objects, ← bytes]; exact filled.bytes,
      by rw [← objects, ← active]; exact filled.active⟩

theorem Sound.modifySegment {c : Contents} (h : c.Sound) (i : Slot) {f : Segment → Segment}
    (hf : ∀ g, c.table.get? i = some g → (f g).links = g.links ∧ (f g).rank = g.rank ∧
      (f g).nextRanked = g.nextRanked ∧ (f g).listing = g.listing) :
    Sound { c with table := c.table.modify i f } := by
  refine h.retable (h.strung.modify i fun g hg => ⟨(hf g hg).1, ?_⟩) ?_ ?_ rfl
  · have listing := (hf g hg).2.2.2
    simp only [Segment.listing, Segment.listed, Prod.mk.injEq] at listing
    exact listing.1.1
  · refine h.ranked.of_same (Arena.same_modify c.table.segments i fun g hg => ?_) rfl
    obtain ⟨-, rank, next, listing⟩ := hf g hg
    simp only [Segment.listing, Segment.listed, Prod.mk.injEq] at listing
    rw [rank, next, listing.1.1]
  · exact Arena.same_modify c.table.segments i fun g hg => (hf g hg).2.2.2

/-- What the settled tables of a choice carry is what segments list and count. -/
theorem Sound.carried {c : Contents} (h : c.Sound) {b : Table} {seqs : Nat → List Slot}
    (strung : b.Strung seqs none) (ranked : b.Ranked) (carried : Table.Carried c.table b) :
    Sound { c with table := b } :=
  h.retable strung ranked (carried.same.of_comp Segment.listing fun _ => rfl) carried.segmentSize

theorem Sound.segment_of_live {c : Contents} (h : c.Sound) {i : Slot} {r : Record ObjectTag}
    (hr : c.store.live? i = some r) :
    ∃ g, c.table.get? r.tag.segment = some g ∧ g.bucket ≠ quarantine ∧ i ∈ g.objects.toList :=
  Table.exists_of_mem_liveObjects (h.ledger.mem_list hr)

end Contents
end CacheReplay.GLCache
