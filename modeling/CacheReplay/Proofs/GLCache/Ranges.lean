import CacheReplay.Proofs.GLCache.Merge

set_option autoImplicit false

namespace CacheReplay

/-- The end of the era. -/
def eraEnd : Int := 0x10000000000

def InEra (t : Int) : Prop := 0 ≤ t ∧ t ≤ eraEnd

instance (t : Int) : Decidable (InEra t) := inferInstanceAs (Decidable (0 ≤ t ∧ t ≤ eraEnd))

theorem inEra_zero : InEra 0 := by decide

/-- A word that lies in the era is the time that its bits say. -/
theorem InEra.timeOfWord {n : Nat} (h : InEra n) : InEra (timeOfWord n) := by
  have time : IsTime n := by
    unfold InEra eraEnd at h
    unfold IsTime timeBound
    omega
  rwa [timeOfWord_of_isTime time]

theorem subTime_of_inEra {a b : Int} (ha : InEra a) (hb : InEra b) : subTime a b = .ok (a - b) := by
  refine if_pos ?_
  unfold InEra eraEnd at ha hb
  unfold IsTime timeBound
  omega

theorem addCount_of_lt {a b : Nat} (h : a + b < countBound) : addCount a b = .ok (a + b) := if_pos h

/-- The times of a record are in the era, and it has at most `n` hits. -/
structure Record.Within (n : Nat) (r : Record GLCache.ObjectTag) : Prop where
  lastAccess : InEra r.lastAccess
  lastAccessTime : InEra r.lastAccessTime
  nextAccess : ∀ next, r.nextAccess = some next → InEra next
  freq : r.tag.freq ≤ n

theorem Record.Within.mono {m n : Nat} {r : Record GLCache.ObjectTag} (h : r.Within m) (le : m ≤ n) :
    r.Within n :=
  { h with freq := Nat.le_trans h.freq le }

namespace GLCache

variable {t : Tolerance} {m n : Nat}

section windows

structure Track.Within (n : Nat) (w : Track) : Prop where
  opened : InEra w.opened
  counts : ∀ x ∈ w.counts, x ≤ n

namespace Track
variable {w : Track} {now : Int}

theorem Within.mono (h : w.Within m) (le : m ≤ n) : w.Within n :=
  ⟨h.opened, fun x hx => Nat.le_trans (h.counts x hx) le⟩

theorem within_start (n : Nat) (era : InEra now) : (start now).Within n := by
  refine ⟨era, fun x hx => ?_⟩
  rw [List.eq_of_mem_replicate hx]
  exact Nat.zero_le n

theorem Within.shift (h : w.Within n) (era : InEra now) : (w.shift now).Within n := by
  refine ⟨era, fun x hx => ?_⟩
  rcases List.mem_cons.mp hx with rfl | old
  · exact Nat.zero_le n
  · exact h.counts x (List.mem_of_mem_take old)

theorem Within.yields_due (h : w.Within n) (width : Int) (era : InEra now) :
    Yields (w.due width now) fun _ => True := by
  unfold due
  rw [subTime_of_inEra era h.opened]
  exact yields_pure trivial

theorem Within.yields_bump (h : w.Within n) (lt : n + 1 < countBound) :
    Yields w.bump fun v => v.Within (n + 1) := by
  unfold bump
  split
  · exact yields_pure (h.mono (Nat.le_succ n))
  · rename_i x rest counts
    have old := h.counts
    rw [counts] at old
    have current := old x List.mem_cons_self
    rw [addCount_of_lt (by omega), ok_bind]
    refine yields_pure ⟨h.opened, fun y hy => ?_⟩
    rcases List.mem_cons.mp hy with rfl | later
    · exact Nat.succ_le_succ current
    · exact Nat.le_succ_of_le (old y (List.mem_cons_of_mem x later))

end Track

structure HitWindows.Within (n : Nat) (w : HitWindows) : Prop where
  minute : w.minute.Within n
  tenMinutes : w.tenMinutes.Within n
  hour : w.hour.Within n

namespace HitWindows
variable {w : HitWindows} {now : Int}

theorem Within.mono (h : w.Within m) (le : m ≤ n) : w.Within n :=
  ⟨h.minute.mono le, h.tenMinutes.mono le, h.hour.mono le⟩

theorem within_start (n : Nat) (era : InEra now) : (start now).Within n :=
  ⟨Track.within_start n era, Track.within_start n era, Track.within_start n era⟩

theorem Within.yields_advance (h : w.Within n) (era : InEra now) :
    Yields (w.advance now) fun v => v.Within n := by
  unfold advance
  apply yields_bind (h.minute.yields_due 60 era)
  intro due _
  split
  · exact yields_pure h
  · apply yields_bind (h.tenMinutes.yields_due 600 era)
    intro due _
    split
    · exact yields_pure ⟨h.minute.shift era, h.tenMinutes, h.hour⟩
    · apply yields_bind (h.hour.yields_due 3600 era)
      intro due _
      split
      · exact yields_pure ⟨h.minute.shift era, h.tenMinutes.shift era, h.hour⟩
      · exact yields_pure ⟨h.minute.shift era, h.tenMinutes.shift era, h.hour.shift era⟩

theorem Within.yields_recordHit (h : w.Within n) (era : InEra now) (lt : n + 1 < countBound) :
    Yields (w.recordHit now) fun v => v.Within (n + 1) := by
  apply yields_bind (h.yields_advance era)
  intro v advanced
  apply yields_bind (advanced.minute.yields_bump lt)
  intro minute bumped
  apply yields_bind (advanced.tenMinutes.yields_bump lt)
  intro tenMinutes bumped'
  apply yields_bind (advanced.hour.yields_bump lt)
  intro hour bumped''
  exact yields_pure ⟨bumped, bumped', bumped''⟩

end HitWindows
end windows

/-- The times of a segment are in the era; its windows count at most `n` hits, and it comes of at most `m` merges. -/
structure Segment.Within (n m : Nat) (s : Segment) : Prop where
  createTime : InEra s.createTime
  labelledFrom : InEra s.labelledFrom
  windows : s.windows.Within n
  merges : s.merges ≤ m

def Segment.gauges (s : Segment) : Int × Int × HitWindows × Nat :=
  (s.createTime, s.labelledFrom, s.windows, s.merges)

namespace Segment.Within
variable {s u : Segment} {k l : Nat}

theorem mono (h : s.Within n k) (hits : n ≤ m) (merges : k ≤ l) : s.Within m l :=
  ⟨h.createTime, h.labelledFrom, h.windows.mono hits, Nat.le_trans h.merges merges⟩

theorem congr (h : s.Within n k) (same : u.gauges = s.gauges) : u.Within n k := by
  simp only [gauges, Prod.mk.injEq] at same
  obtain ⟨created, labelled, windows, merges⟩ := same
  exact ⟨created ▸ h.createTime, labelled ▸ h.labelledFrom, windows ▸ h.windows, merges ▸ h.merges⟩

end Segment.Within

theorem Segment.within_fresh {time : Int} (n m id bucket : Nat) (now : Int) (era : InEra time) :
    (fresh id bucket time now).Within n m :=
  ⟨era, inEra_zero, HitWindows.within_start n era, Nat.zero_le m⟩

namespace Table

/-- Every segment is in its range, where each merge made a segment of its own. -/
def Within (n : Nat) (a : Table) : Prop := ∀ i s, a.get? i = some s → s.Within n a.nextId

namespace Within
variable {a b : Table} (h : a.Within n)
include h

theorem mono (le : n ≤ m) : a.Within m := fun i s hs => (h i s hs).mono le (Nat.le_refl _)

theorem of_same (same : a.segments.Same Segment.gauges b.segments) (nextId : b.nextId = a.nextId) :
    b.Within n := by
  intro i u hu
  obtain ⟨s, hs, e⟩ := same.symm.get? hu
  rw [nextId]
  exact (h i s hs).congr e.symm

theorem of_bare (same : a.segments.Same bare b.segments) (nextId : b.nextId = a.nextId) : b.Within n :=
  h.of_same (same.of_comp Segment.gauges fun _ => rfl) nextId

theorem carried (carried : Carried a b) : b.Within n :=
  h.of_same (carried.same.of_comp Segment.gauges fun _ => rfl) carried.nextId

theorem modify (i : Slot) {f : Segment → Segment}
    (hf : ∀ s, a.get? i = some s → s.Within n a.nextId → (f s).Within n a.nextId) :
    (a.modify i f).Within n := by
  intro j u hu
  rw [get?_modify] at hu
  split at hu
  · rename_i e
    subst e
    obtain ⟨s, hs, rfl⟩ := Option.map_eq_some_iff.mp hu
    exact hf s hs (h i s hs)
  · exact h j u hu

theorem clearRank (i : Slot) : (a.clearRank i).Within n :=
  h.of_same (a.same_clearRank i fun _ => rfl) (a.clearRank_nextId i)

theorem remove (i : Slot) : Within n { a with segments := (a.segments.remove i).2 } := by
  intro j u hu
  rw [Table.get?, a.segments.get?_remove i j] at hu
  split at hu
  · cases hu
  · exact h j u hu

theorem append (i : Slot) : (a.append i).Within n ∧ (a.append i).nextId = a.nextId :=
  ⟨h.of_bare (a.append_same i).1 (a.append_same i).2, (a.append_same i).2⟩

theorem insertBefore (k : Nat) (anchor i : Slot) :
    (a.insertBefore k anchor i).Within n ∧ (a.insertBefore k anchor i).nextId = a.nextId :=
  ⟨h.of_bare (a.insertBefore_same k anchor i).1 (a.insertBefore_same k anchor i).2,
    (a.insertBefore_same k anchor i).2⟩

theorem settles_unlink (i : Slot) :
    Settles t ((a.clearRank i).unlink i) fun b => b.Within n ∧ b.nextId = a.nextId :=
  ((a.clearRank i).settles_unlink_same i).mono fun _ unlinked =>
    ⟨(h.clearRank i).of_bare unlinked.1 unlinked.2, unlinked.2.trans (a.clearRank_nextId i)⟩

theorem settles_free (i : Slot) : Settles t (a.free i) fun b => b.Within n ∧ b.nextId = a.nextId :=
  settles_bind (h.settles_unlink i) fun _ unlinked => settles_pure ⟨unlinked.1.remove i, unlinked.2⟩

theorem settles_retire (i : Slot) {now : Int} (era : InEra now) :
    Settles t (a.retire i now) fun b => b.Within n ∧ b.nextId = a.nextId := by
  refine settles_bind (h.settles_unlink i) fun b unlinked => settles_pure ?_
  have moved := unlinked.1.modify i
    (f := fun s => { s with bucket := quarantine, labelledFrom := now, label := 0 })
    fun _ _ hs => ⟨hs.createTime, era, hs.windows, hs.merges⟩
  exact ⟨(moved.append i).1, (moved.append i).2.trans unlinked.2⟩

theorem settles_allocate {seqs : Nat → List Slot} (strung : a.Strung seqs none) (bucket : Nat) {time : Int}
    (era : InEra time) (now : Int) :
    Settles t (a.allocate bucket time now) fun p => p.2.Within n ∧ p.2.nextId = a.nextId + 1 := by
  have numbered : Settles t (a.allocate bucket time now) fun p => p.2.nextId = a.nextId + 1 :=
    settles_bind (settles_addWord _ _) fun _ sum => settles_pure sum.1
  refine ((strung.settles_allocate bucket time now).and numbered).mono fun p made => ?_
  obtain ⟨⟨-, -, -, self, others, -⟩, nextId⟩ := made
  refine ⟨fun j u hu => ?_, nextId⟩
  rw [nextId]
  by_cases e : j = p.1
  · rw [e, self] at hu
    cases hu
    exact Segment.within_fresh n _ _ _ now era
  · rw [others j e] at hu
    exact (h j u hu).mono (Nat.le_refl n) (Nat.le_succ _)

end Within

theorem within_empty (n segmentSize : Nat) : (empty segmentSize).Within n := by
  intro i s hs
  rw [get?, empty, Arena.get?_empty] at hs
  cases hs

end Table

theorem Succeeds.within {u r : Record ObjectTag} (h : Succeeds u r) (k : u.Within n) : r.Within n := by
  rw [← h.same]
  exact ⟨k.lastAccess, k.lastAccessTime, k.nextAccess, Nat.le_trans h.freq k.freq⟩

def LiveWithin (n : Nat) (s : Store ObjectTag) : Prop := ∀ i r, s.live? i = some r → r.Within n

theorem LiveWithin.mono {s : Store ObjectTag} (h : LiveWithin m s) (le : m ≤ n) : LiveWithin n s :=
  fun i r hr => (h i r hr).mono le

theorem LiveWithin.of_sheds {ps : List Slot} {c d : Contents} (h : LiveWithin n c.store)
    (sheds : Sheds ps c d) : LiveWithin n d.store := by
  intro i r hr
  obtain ⟨u, hu, later⟩ := sheds.live i r hr
  exact later.within (h i u hu)

structure Contents.Within (n : Nat) (c : Contents) : Prop where
  table : c.table.Within n
  live : LiveWithin n c.store

theorem Contents.Within.listed {c : Contents} (h : c.Within n) (sound : c.Sound) {k : Slot} {g : Segment}
    (hg : c.table.get? k = some g) (home : g.bucket ≠ quarantine) {i : Slot} (hi : i ∈ g.objects.toList)
    {r : Record ObjectTag} (hr : c.store.get? i = some r) : r.Within n := by
  rw [← Table.liveObjects_of_live hg home, sound.ledger.live] at hi
  obtain ⟨u, hu, -⟩ := hi
  have same := ((c.store.live?_eq_some_iff i u).mp hu).1
  rw [hr] at same
  cases same
  exact h.live i r hu

structure Moment.Dated (m : Moment) : Prop where
  time : InEra m.time
  now : InEra m.now

end GLCache
end CacheReplay
