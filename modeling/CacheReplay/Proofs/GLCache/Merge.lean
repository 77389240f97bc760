import CacheReplay.Proofs.GLCache.Choice
import CacheReplay.Proofs.GLCache.Sifting

set_option autoImplicit false

namespace CacheReplay.GLCache

variable {t : Tolerance}

def Segment.retired (s : Segment) (ghosts : List Slot) (now : Int) : Segment :=
  { s with rank := none, bucket := quarantine, labelledFrom := now, label := 0, bytes := 0,
           objects := ghosts.toArray }

namespace Table
variable {a b : Table} {p : Slot} {s : Segment} {ghosts : List Slot}

theorem listed_of_cargo {k : Slot}
    (h : (b.get? k).map Segment.cargo = (a.get? k).map Segment.cargo) :
    (b.get? k).map Segment.listed = (a.get? k).map Segment.listed := by
  have e := congrArg (Option.map Segment.listed) h
  rw [Option.map_map, Option.map_map] at e
  exact e

theorem exists_of_cargo {k : Slot} {u : Segment}
    (h : (b.get? k).map Segment.cargo = (a.get? k).map Segment.cargo) (hu : b.get? k = some u) :
    ∃ v, a.get? k = some v ∧ v.cargo = u.cargo := by
  rw [hu, Option.map_some] at h
  exact Option.map_eq_some_iff.mp h.symm

theorem exists_live_of_cargo {k : Slot} {u : Segment}
    (h : (b.get? k).map Segment.cargo = (a.get? k).map Segment.cargo) (hu : b.get? k = some u)
    (live : u.bucket ≠ quarantine) :
    ∃ v, a.get? k = some v ∧ v.bucket ≠ quarantine ∧ v.cargo = u.cargo := by
  obtain ⟨v, hv, e⟩ := exists_of_cargo h hu
  refine ⟨v, hv, ?_, e⟩
  rw [(Segment.eq_of_cargo e).1]
  exact live

theorem Strung.inUse_succ_of_cargo (ha : a.Strung a.chainOf none) (hb : b.Strung b.chainOf none)
    (hs : a.get? p = some s) (home : s.bucket ≠ quarantine)
    (others : ∀ k, k ≠ p → (b.get? k).map Segment.cargo = (a.get? k).map Segment.cargo)
    (gone : ∀ g, b.get? p = some g → g.bucket = quarantine) : b.inUse + 1 = a.inUse := by
  refine ha.inUse_succ hb ((ha.mem_live_iff p).mpr ⟨s, hs, home⟩) fun j => ?_
  rw [hb.mem_live_iff, ha.mem_live_iff]
  by_cases e : j = p
  · constructor
    · intro found
      obtain ⟨g, hg, live⟩ := found
      rw [e] at hg
      exact absurd (gone g hg) live
    · intro found
      exact absurd e found.1
  · have same := congrArg (Option.map Segment.bucket) (others j e)
    rw [Option.map_map, Option.map_map] at same
    have read : ∀ o : Option Segment, (∃ g, o = some g ∧ g.bucket ≠ quarantine) ↔
        ∃ k, o.map (Segment.bucket ∘ Segment.cargo) = some k ∧ k ≠ quarantine := by
      intro o
      cases o <;> simp [Segment.cargo]
    rw [read, read, same, and_iff_right e]

/-- The objects of a live segment were taken away from it, which is still in its bucket. -/
structure Stripped (p : Slot) (s : Segment) (a b : Table) : Prop where
  strung : b.Strung b.chainOf none
  ranked : b.Ranked
  segment : ∃ u, b.get? p = some u ∧ u.bucket = s.bucket ∧ u.sampled = s.sampled ∧
    u.sample? = s.sample?
  others : ∀ k, k ≠ p → b.get? k = a.get? k
  segmentSize : b.segmentSize = a.segmentSize

theorem Stripped.of_modify (strung : a.Strung a.chainOf none) (ranked : a.Ranked)
    (hs : a.get? p = some s) {f : Segment → Segment}
    (place : (f s).links = s.links ∧ (f s).bucket = s.bucket)
    (rank : (f s).rank = s.rank ∧ (f s).nextRanked = s.nextRanked)
    (sampled : (f s).sampled = s.sampled ∧ (f s).sample? = s.sample?) :
    Stripped p s a (a.modify p f) := by
  have only : ∀ u, a.get? p = some u → u = s := by
    intro u hu
    rw [hs] at hu
    exact (Option.some.inj hu).symm
  have get := fun k => a.get?_modify p k f
  have self := get p
  rw [if_pos rfl, hs, Option.map_some] at self
  refine ⟨?_, ?_, ⟨f s, self, place.2, sampled⟩, fun k hk => ?_, rfl⟩
  · exact (strung.modify p fun u hu => by rw [only u hu]; exact place).listed
  · refine ranked.of_same (Arena.same_modify a.segments p fun u hu => ?_) rfl
    rw [only u hu, place.2, rank.1, rank.2]
  · rw [get, if_neg (Ne.symm hk)]

/-- A live segment has left its bucket and lists nothing but ghosts, if it is still there. -/
structure Emptied (p : Slot) (ghosts : List Slot) (a b : Table) : Prop where
  strung : b.Strung b.chainOf none
  ranked : b.Ranked
  lists : b.liveObjects = Function.update a.liveObjects p []
  slots : b.ghostSlots = Function.update a.ghostSlots p ghosts
  others : ∀ k, k ≠ p → (b.get? k).map Segment.cargo = (a.get? k).map Segment.cargo
  gone : ∀ g, b.get? p = some g → g.bucket = quarantine
  segmentSize : b.segmentSize = a.segmentSize
  inUse : b.inUse + 1 = a.inUse
  sample? : b.sample? = a.sample?

theorem Emptied.of_others (ha : a.Strung a.chainOf none) (hs : a.get? p = some s)
    (home : s.bucket ≠ quarantine) (strung : b.Strung b.chainOf none) (ranked : b.Ranked)
    (others : ∀ k, k ≠ p → (b.get? k).map Segment.cargo = (a.get? k).map Segment.cargo)
    (gone : ∀ g, b.get? p = some g → g.bucket = quarantine) (segmentSize : b.segmentSize = a.segmentSize)
    (left : b.ghostSlots p = ghosts) (sample : b.sample? p = a.sample? p) : Emptied p ghosts a b where
  strung := strung
  ranked := ranked
  lists := by
    funext k
    by_cases e : k = p
    · rw [e, Function.update_self]
      cases hg : b.get? p with
      | none => exact liveObjects_of_none hg
      | some g => exact liveObjects_of_retired hg (gone g hg)
    · rw [Function.update_of_ne e]
      exact (listed_congr (listed_of_cargo (others k e))).1
  slots := by
    funext k
    by_cases e : k = p
    · rw [e, Function.update_self]
      exact left
    · rw [Function.update_of_ne e]
      exact (listed_congr (listed_of_cargo (others k e))).2
  others := others
  gone := gone
  segmentSize := segmentSize
  inUse := ha.inUse_succ_of_cargo strung hs home others gone
  sample? := by
    funext k
    by_cases e : k = p
    · rw [e, sample]
    · exact sample?_of_cargo (others k e)

/-- A segment has left its bucket, for the quarantine with some ghosts if it was sampled. -/
structure Vacated (p : Slot) (s : Segment) (ghosts : List Slot) (now : Int) (a b : Table) : Prop where
  strung : b.Strung b.chainOf none
  ranked : b.Ranked
  chain : b.chainOf s.bucket = (a.chainOf s.bucket).erase p
  waiting : b.chainOf quarantine = a.chainOf quarantine ++ if s.sampled then [p] else []
  elsewhere : ∀ k, k ≠ s.bucket → k ≠ quarantine → b.chainOf k = a.chainOf k
  freed : s.sampled = false → b.get? p = none
  retired : s.sampled = true → (b.get? p).map bare = some (bare (s.retired ghosts now))
  others : ∀ k, k ≠ p → (b.get? k).map bare = (a.get? k).map bare
  segmentSize : b.segmentSize = a.segmentSize

theorem cargo_of_bare {k : Slot} (h : (b.get? k).map bare = (a.get? k).map bare) :
    (b.get? k).map Segment.cargo = (a.get? k).map Segment.cargo := by
  have e := congrArg (Option.map Segment.cargo) h
  rw [Option.map_map, Option.map_map] at e
  exact e

theorem Vacated.emptied {now : Int} (h : Vacated p s ghosts now a b) (ha : a.Strung a.chainOf none)
    (hs : a.get? p = some s) (home : s.bucket ≠ quarantine) (unsampled : s.sampled = false → ghosts = []) :
    Emptied p ghosts a b := by
  have others := fun k hk => cargo_of_bare (h.others k hk)
  cases sampled : s.sampled with
  | false =>
    have gone := h.freed sampled
    refine .of_others ha hs home h.strung h.ranked others (fun g hg => ?_) h.segmentSize ?_ ?_
    · rw [gone] at hg
      cases hg
    · rw [unsampled sampled]
      exact ghostSlots_of_none gone
    · rw [sample?_of_none gone, sample?_of_get? hs, Segment.sample?, sampled]
      rfl
  | true =>
    obtain ⟨g, hg, e⟩ := Option.map_eq_some_iff.mp (h.retired sampled)
    have retired : g.bucket = quarantine := congrArg (·.bucket) e
    have objects : g.objects = ghosts.toArray := congrArg (·.objects) e
    have sample := congrArg Segment.sample? e
    refine .of_others ha hs home h.strung h.ranked others (fun g' hg' => ?_) h.segmentSize ?_ ?_
    · rw [hg] at hg'
      cases hg'
      exact retired
    · rw [ghostSlots_of_retired hg retired, objects]
    · rw [sample?_of_get? hg, sample?_of_get? hs]
      exact sample

structure Opened (i : Slot) (a b : Table) : Prop where
  strung : b.Strung b.chainOf none
  ranked : b.Ranked
  fresh : a.get? i = none
  segment : ∃ s, b.get? i = some s ∧ s.bucket ≠ quarantine ∧ s.objects = #[] ∧ s.bytes = 0 ∧
    s.active = 0 ∧ s.sampled = false
  others : ∀ k, k ≠ i → (b.get? k).map Segment.cargo = (a.get? k).map Segment.cargo
  segmentSize : b.segmentSize = a.segmentSize

theorem Opened.of_placed {mid : Table} {i : Slot} {seqs : Nat → List Slot} (ranked : a.Ranked)
    (fresh : a.get? i = none) (hs : mid.get? i = some s) (home : s.bucket ≠ quarantine)
    (empty : s.objects = #[] ∧ s.bytes = 0 ∧ s.active = 0 ∧ s.rank = none ∧ s.sampled = false)
    (others : ∀ k, k ≠ i → mid.get? k = a.get? k) (strung : b.Strung seqs none)
    (same : mid.segments.Same bare b.segments) (ranking : b.ranking = a.ranking)
    (segmentSize : b.segmentSize = a.segmentSize) : Opened i a b where
  strung := strung.listed
  ranked := by
    refine ranked.of_fewer (fun p j hj => ?_) fun j u hu some => ?_
    · rw [ranking] at hj
      obtain ⟨v, hv, rank⟩ := ranked.slots p j hj
      have apart : j ≠ i := by
        intro e
        rw [e, fresh] at hv
        cases hv
      rw [← others j apart] at hv
      obtain ⟨u, hu, e⟩ := same.get? hv
      have kept : u.rank = v.rank := congrArg (·.rank) e
      exact ⟨u, hu, kept.trans rank⟩
    · obtain ⟨v, hv, e⟩ := same.symm.get? hu
      have rank : v.rank = u.rank := congrArg (·.rank) e
      have next : v.nextRanked = u.nextRanked := congrArg (·.nextRanked) e
      have bucket : v.bucket = u.bucket := congrArg (·.bucket) e
      refine ⟨v, ?_, rank, next, bucket⟩
      rw [← others j]
      · exact hv
      · intro at_i
        rw [at_i] at hv
        cases hs.symm.trans hv
        rw [← rank, empty.2.2.2.1] at some
        cases some
  fresh := fresh
  segment := by
    obtain ⟨u, hu, e⟩ := same.get? hs
    have bucket : u.bucket = s.bucket := congrArg (·.bucket) e
    have objects : u.objects = s.objects := congrArg (·.objects) e
    have bytes : u.bytes = s.bytes := congrArg (·.bytes) e
    have active : u.active = s.active := congrArg (·.active) e
    have sampled : u.sampled = s.sampled := congrArg (·.sampled) e
    refine ⟨u, hu, ?_, objects.trans empty.1, bytes.trans empty.2.1, active.trans empty.2.2.1,
      sampled.trans empty.2.2.2.2⟩
    rw [bucket]
    exact home
  others k hk := by
    rw [← others k hk]
    exact same.of_comp (g := Segment.cargo) Segment.cargo (fun _ => rfl) k
  segmentSize := segmentSize

theorem Opened.lists_eq {i : Slot} (h : Opened i a b) :
    b.liveObjects = a.liveObjects ∧ b.ghostSlots = a.ghostSlots := by
  obtain ⟨u, hu, home, objects, -⟩ := h.segment
  have at_new : b.liveObjects i = a.liveObjects i ∧ b.ghostSlots i = a.ghostSlots i := by
    rw [liveObjects_of_live hu home, objects, ghostSlots_of_live hu home, liveObjects_of_none h.fresh,
      ghostSlots_of_none h.fresh]
    exact ⟨rfl, rfl⟩
  have listed : ∀ k, b.liveObjects k = a.liveObjects k ∧ b.ghostSlots k = a.ghostSlots k := by
    intro k
    by_cases e : k = i
    · rw [e]
      exact at_new
    · exact listed_congr (listed_of_cargo (h.others k e))
  exact ⟨funext fun k => (listed k).1, funext fun k => (listed k).2⟩

theorem Opened.sample?_eq {i : Slot} (h : Opened i a b) : b.sample? = a.sample? := by
  funext k
  by_cases e : k = i
  · obtain ⟨u, hu, -, -, -, -, unsampled⟩ := h.segment
    rw [e, sample?_of_get? hu, sample?_of_none h.fresh, Segment.sample?, unsampled]
    rfl
  · exact sample?_of_cargo (h.others k e)

theorem Opened.inUse {i : Slot} (h : Opened i a b) (ha : a.Strung a.chainOf none) :
    b.inUse = a.inUse + 1 := by
  obtain ⟨u, hu, home, -⟩ := h.segment
  refine (h.strung.inUse_succ_of_cargo ha hu home (fun k hk => (h.others k hk).symm) ?_).symm
  intro g hg
  rw [h.fresh] at hg
  cases hg

/-- Distinct segments of one live bucket. -/
structure Group (a : Table) (parents : List Slot) (k : Nat) : Prop where
  ne : parents ≠ []
  nodup : parents.Nodup
  live : k < liveBuckets
  mem : ∀ p ∈ parents, p ∈ a.chainOf k

theorem Group.exists_segment {parents : List Slot} {k : Nat} (group : a.Group parents k)
    (h : a.Strung a.chainOf none) {p : Slot} (hp : p ∈ parents) :
    ∃ s, a.get? p = some s ∧ s.bucket = k ∧ s.bucket ≠ quarantine := by
  obtain ⟨s, hs, home⟩ := (h.mem_iff k p).mp (group.mem p hp)
  refine ⟨s, hs, home, ?_⟩
  rw [home]
  exact Nat.ne_of_lt group.live

theorem exists_group_of_legal {run : List Slot} {n : Nat}
    (legal : (Choice.merge run).Legal a.chainOf n) (pos : 0 < n) : ∃ k, a.Group run k := by
  obtain ⟨length, nodup, k, hk, mem⟩ := legal
  refine ⟨k, ?_, nodup, hk, fun p hp => (mem p hp).1⟩
  rintro rfl
  rw [← length] at pos
  cases pos

/-- The segment that some segments are merged into, before it holds anything. -/
def heir (a : Table) (k : Nat) (parents : List Slot) (m : Moment) : Segment :=
  { Segment.fresh a.nextId k m.time m.now with
    rates := Contents.meanRates (parents.filterMap a.get?) parents.length
    merges := ((parents.filterMap a.get?).map (·.merges)).foldl max 0 + 1 }

/-- The target of a merge is placed just before the first parent. -/
structure Placed (k : Nat) (parents : List Slot) (m : Moment) (i : Slot) (a b : Table) : Prop
    extends Opened i a b where
  heir : ∃ l, b.get? i = some { a.heir k parents m with links := l }
  chain : b.chainOf k = (a.chainOf k).flatMap fun p => if parents.head? = some p then [i, p] else [p]
  elsewhere : ∀ k', k' ≠ k → b.chainOf k' = a.chainOf k'
  same : ∀ j, j ≠ i → (b.get? j).map bare = (a.get? j).map bare

end Table

namespace Contents

theorem yields_retireOrFree {c : Contents} {p : Slot} {s : Segment} (ghosts : List Slot) (m : Moment)
    (strung : c.table.Strung c.table.chainOf none) (ranked : c.table.Ranked)
    (hs : c.table.get? p = some s) (home : s.bucket ≠ quarantine) :
    Yields (c.retireOrFree p ghosts m) fun d => d.store = c.store ∧ d.account = c.account ∧
      Table.Vacated p s ghosts m.now c.table d.table := by
  unfold retireOrFree
  rw [hs, Option.any_some]
  split
  · rename_i sampled
    have listed := strung.modify p (f := fun s => { s with objects := ghosts.toArray, bytes := 0 })
      fun _ _ => ⟨rfl, rfl⟩
    have still : (c.table.modify p fun s => { s with objects := ghosts.toArray, bytes := 0 }).Ranked :=
      ranked.of_same (Arena.same_modify c.table.segments p fun _ _ => rfl) rfl
    have get := fun j =>
      c.table.get?_modify p j (f := fun s => { s with objects := ghosts.toArray, bytes := 0 })
    have same : (c.table.modify p fun s => { s with objects := ghosts.toArray, bytes := 0 }).segmentSize =
        c.table.segmentSize := rfl
    generalize (c.table.modify p fun s => { s with objects := ghosts.toArray, bytes := 0 }) = a
      at listed still get same ⊢
    have self := get p
    rw [if_pos rfl, hs] at self
    have order : a.chainOf = c.table.chainOf := funext listed.chainOf_eq
    refine yields_bind (listed.listed.yields_retire still self home m.now) fun b retired => ?_
    obtain ⟨strung', ranked', ⟨l, hl⟩, others, size⟩ := retired
    rw [order] at strung'
    have emptied : (b.get? p).map bare = some (bare (s.retired ghosts m.now)) := by
      rw [hl]
      rfl
    have chain := strung'.chainOf_eq
    refine yields_pure ⟨rfl, rfl, strung'.listed, ranked', ?_, ?_, fun k hk away => ?_, fun out => ?_,
      fun _ => emptied, fun k hk => ?_, size.trans same⟩
    · rw [chain, Function.update_of_ne home, Function.update_self]
    · rw [chain, Function.update_self, if_pos sampled]
    · rw [chain, Function.update_of_ne away, Function.update_of_ne hk]
    · rw [sampled] at out
      cases out
    · rw [others k hk, get, if_neg (Ne.symm hk)]
  · rename_i out
    refine yields_bind (strung.yields_free ranked hs) fun b freed => ?_
    obtain ⟨strung', ranked', gone, others, size⟩ := freed
    have chain := strung'.chainOf_eq
    refine yields_pure ⟨rfl, rfl, strung'.listed, ranked', ?_, ?_, fun k hk away => ?_, fun _ => gone,
      fun sampled => absurd sampled out, others, size⟩
    · rw [chain, Function.update_self]
    · rw [chain, Function.update_of_ne (Ne.symm home), if_neg out, List.append_nil]
    · rw [chain, Function.update_of_ne hk]

theorem yields_retireStripped {a : Table} {d : Contents} {p : Slot} {s : Segment} {ghosts : List Slot}
    {m : Moment} (strung : a.Strung a.chainOf none) (hs : a.get? p = some s)
    (home : s.bucket ≠ quarantine) (stripped : Table.Stripped p s a d.table)
    (unsampled : s.sampled = false → ghosts = []) :
    Yields (d.retireOrFree p ghosts m) fun e => e.store = d.store ∧ e.account = d.account ∧
      Table.Emptied p ghosts a e.table := by
  obtain ⟨u, hu, at_home, same, sample⟩ := stripped.segment
  rw [← at_home] at home
  rw [← same] at unsampled
  refine (yields_retireOrFree ghosts m stripped.strung stripped.ranked hu home).mono fun e done => ?_
  obtain ⟨store, account, vacated⟩ := done
  have emptied := vacated.emptied stripped.strung hu home unsampled
  rw [at_home] at home
  refine ⟨store, account, .of_others strung hs home emptied.strung emptied.ranked (fun k hk => ?_)
    emptied.gone (emptied.segmentSize.trans stripped.segmentSize) ?_ ?_⟩
  · rw [emptied.others k hk, stripped.others k hk]
  · rw [emptied.slots, Function.update_self]
  · rw [emptied.sample?, Table.sample?_of_get? hu, Table.sample?_of_get? hs, sample]

end Contents

theorem Segment.Filled.of_cargo {u v : Segment} {capacity overhead : Nat} {s : Store ObjectTag}
    (h : v.Filled capacity s overhead) (e : v.cargo = u.cargo) : u.Filled capacity s overhead := by
  obtain ⟨-, objects, bytes, active⟩ := Segment.eq_of_cargo e
  refine ⟨?_, ?_, ?_⟩
  · rw [← objects]
    exact h.fits
  · rw [← objects, ← bytes]
    exact h.bytes
  · rw [← objects, ← active]
    exact h.active

theorem Table.Emptied.filled {c d : Contents} {p : Slot} {slots : List Slot}
    (h : Emptied p slots c.table d.table) (shed : Sheds [p] c d) {lists ghosts : Slot → List Slot}
    (ledger : Ledger c.store c.account lists ghosts) {k : Slot} {u : Segment}
    (hu : d.table.get? k = some u) (live : u.bucket ≠ quarantine)
    (listed : lists k = c.table.liveObjects k)
    (filled : ∀ v, c.table.get? k = some v → v.bucket ≠ quarantine →
      v.Filled c.table.segmentSize c.store c.account.overhead) :
    u.Filled d.table.segmentSize d.store d.account.overhead := by
  have apart : k ≠ p := by
    intro e
    rw [e] at hu
    exact live (h.gone u hu)
  obtain ⟨v, hv, home, e⟩ := Table.exists_live_of_cargo (h.others k apart) hu live
  rw [h.segmentSize, shed.terms.overhead]
  refine ((filled v hv home).congr fun i hi => ?_).of_cargo e
  rw [← Table.liveObjects_of_live hv home, ← listed, ledger.live] at hi
  obtain ⟨r, hr, owner⟩ := hi
  rw [hr]
  refine shed.others i r hr ?_
  rw [owner, List.mem_singleton]
  exact apart

namespace Contents

def leaving (c : Contents) (ps : List Slot) (i : Slot) : Prop :=
  ∃ r g, c.store.live? i = some r ∧ r.tag.segment ∈ ps ∧
    c.table.get? r.tag.segment = some g ∧ (g.sampled && !r.tag.seen) = true

theorem leaving_singleton {c : Contents} {p : Slot} {s : Segment} (hs : c.table.get? p = some s)
    (listed : ∀ i, i ∈ s.objects.toList ↔ ∃ r, c.store.live? i = some r ∧ r.tag.segment = p) (i : Slot) :
    c.leaving [p] i ↔ unseen c.store s.sampled s.objects.toList i := by
  rw [unseen, listed, leaving]
  constructor
  · rintro ⟨r, g, hr, home, hg, leaves⟩
    rw [List.mem_singleton] at home
    rw [home, hs] at hg
    cases hg
    exact ⟨⟨r, hr, home⟩, r, hr, leaves⟩
  · rintro ⟨⟨r, hr, home⟩, u, hu, leaves⟩
    rw [hr] at hu
    cases hu
    exact ⟨r, s, hr, List.mem_singleton.mpr home, by rw [home]; exact hs, leaves⟩

theorem leaving_congr {c d : Contents} {ps : List Slot}
    (others : ∀ k ∈ ps, (d.table.get? k).map Segment.cargo = (c.table.get? k).map Segment.cargo)
    (same : ∀ i r, r.tag.segment ∈ ps → (d.store.live? i = some r ↔ c.store.live? i = some r))
    (i : Slot) : c.leaving ps i ↔ d.leaving ps i := by
  refine exists_congr fun r => ?_
  constructor
  · rintro ⟨g, hr, hk, hg, leaves⟩
    obtain ⟨u, hu, e⟩ := Table.exists_of_cargo (others _ hk).symm hg
    have sampled : u.sampled = g.sampled := congrArg (·.sampled) e
    exact ⟨u, (same i r hk).mpr hr, hk, hu, by rw [sampled]; exact leaves⟩
  · rintro ⟨g, hr, hk, hg, leaves⟩
    obtain ⟨u, hu, e⟩ := Table.exists_of_cargo (others _ hk) hg
    have sampled : u.sampled = g.sampled := congrArg (·.sampled) e
    exact ⟨u, (same i r hk).mp hr, hk, hu, by rw [sampled]; exact leaves⟩

theorem leaving_cons (c : Contents) (p : Slot) (rest : List Slot) (i : Slot) :
    c.leaving (p :: rest) i ↔ c.leaving [p] i ∨ c.leaving rest i := by
  simp only [leaving, List.mem_cons, List.not_mem_nil, or_false]
  constructor
  · rintro ⟨r, g, hr, home | home, hg⟩
    · exact .inl ⟨r, g, hr, home, hg⟩
    · exact .inr ⟨r, g, hr, home, hg⟩
  · rintro (⟨r, g, hr, home, hg⟩ | ⟨r, g, hr, home, hg⟩)
    · exact ⟨r, g, hr, .inl home, hg⟩
    · exact ⟨r, g, hr, .inr home, hg⟩

end Contents

namespace Merging

/-- Contents in the middle of a merge; some parents are still to be emptied. -/
structure Underway (g : Merging) (left : List Slot) : Prop where
  strung : g.contents.table.Strung g.contents.table.chainOf none
  ranked : g.contents.table.Ranked
  sifting : g.Sifting g.contents.table.liveObjects g.contents.table.ghostSlots
  target : ∃ s, g.contents.table.get? g.target = some s ∧ s.bucket ≠ quarantine ∧ s.objects = #[] ∧
    s.active = 0
  filled : ∀ k s, k ≠ g.target → g.contents.table.get? k = some s → s.bucket ≠ quarantine →
    s.Filled g.contents.table.segmentSize g.contents.store g.contents.account.overhead
  parents : ∀ p ∈ left, p ≠ g.target ∧ ∃ s, g.contents.table.get? p = some s ∧ s.bucket ≠ quarantine
  nodup : left.Nodup

structure Absorbs (ps : List Slot) (g g' : Merging) : Prop where
  sheds : Sheds ps g.contents g'.contents
  target : g'.target = g.target
  segmentSize : g'.contents.table.segmentSize = g.contents.table.segmentSize
  count : g'.dropped + g'.contents.account.objects = g.dropped + g.contents.account.objects
  inUse : g'.contents.table.inUse + ps.length = g.contents.table.inUse
  sample? : g'.contents.table.sample? = g.contents.table.sample?
  others : ∀ k, k ∉ ps →
    (g'.contents.table.get? k).map Segment.cargo = (g.contents.table.get? k).map Segment.cargo
  moved : ∀ i r, g'.contents.store.live? i = some r →
    g.contents.store.live? i = some r ∨ (r.tag.segment = g.target ∧ r.tag.seen = false)
  leaves : Store.Leaves (g.contents.leaving ps) g.contents.store g'.contents.store

/-- A merge goes on after one of its parents was emptied. -/
theorem Underway.next {g g' : Merging} {p : Slot} {slots left : List Slot} (h : g.Underway (p :: left))
    (target : g'.target = g.target) (sheds : Sheds [p] g.contents g'.contents)
    (emptied : Table.Emptied p slots g.contents.table g'.contents.table)
    (sifting : g'.Sifting g'.contents.table.liveObjects g'.contents.table.ghostSlots) :
    g'.Underway left where
  strung := emptied.strung
  ranked := emptied.ranked
  sifting := sifting
  target := by
    obtain ⟨u, hu, live, objects, active⟩ := h.target
    have apart := (h.parents p List.mem_cons_self).1
    obtain ⟨v, hv, home, e⟩ :=
      Table.exists_live_of_cargo (emptied.others g.target (Ne.symm apart)).symm hu live
    obtain ⟨-, same, -, count⟩ := Segment.eq_of_cargo e
    rw [target]
    exact ⟨v, hv, home, same.trans objects, count.trans active⟩
  filled k u hk hu live := by
    rw [target] at hk
    refine emptied.filled sheds h.sifting.ledger hu live ?_ fun v hv home => h.filled k v hk hv home
    rw [Function.update_of_ne hk]
  parents q hq := by
    have apart : q ≠ p := by
      intro e
      rw [e] at hq
      exact (List.nodup_cons.mp h.nodup).1 hq
    obtain ⟨away, u, hu, live⟩ := h.parents q (List.mem_cons_of_mem p hq)
    obtain ⟨v, hv, home, -⟩ := Table.exists_live_of_cargo (emptied.others q apart).symm hu live
    rw [target]
    exact ⟨away, v, hv, home⟩
  nodup := h.nodup.of_cons

theorem Underway.begin {g : Merging} {p : Slot} {left : List Slot} (h : g.Underway (p :: left)) {s : Segment}
    (hs : g.contents.table.get? p = some s) (home : s.bucket ≠ quarantine) {b : Table}
    (e : b = g.contents.table.modify p fun s => { s with objects := #[] }) :
    Table.Stripped p s g.contents.table b ∧
      Sifting { g with contents := { g.contents with table := b } }
        (Function.update g.contents.table.liveObjects p s.objects.toList)
        (Function.update g.contents.table.ghostSlots p []) := by
  have stripped := Table.Stripped.of_modify h.strung h.ranked hs
    (f := fun s => { s with objects := #[] }) ⟨rfl, rfl⟩ ⟨rfl, rfl⟩ ⟨rfl, rfl⟩
  rw [← e] at stripped
  refine ⟨stripped, ?_⟩
  obtain ⟨lists, slots⟩ := Table.update_lists_of_live hs home
  rw [lists, slots]
  refine ⟨h.sifting.ledger, ?_, h.sifting.bytes, h.sifting.active⟩
  rw [stripped.segmentSize]
  exact h.sifting.fits

theorem Underway.settles_absorb {g : Merging} {p : Slot} {left : List Slot}
    (h : g.Underway (p :: left)) (m : Moment) :
    Settles t (g.absorb p m) fun g' => g'.Underway left ∧ Absorbs [p] g g' := by
  obtain ⟨apart, s, hs, home⟩ := h.parents p List.mem_cons_self
  unfold absorb
  rw [hs]
  dsimp only [Contents.takeObjects]
  rw [Table.objectsOf_of_get? hs]
  generalize e : (g.contents.table.modify p fun s => { s with objects := #[] }) = b
  obtain ⟨stripped, start⟩ := h.begin hs home e.symm
  refine settles_bind (start.settles_siftAll s.sampled apart) fun q sifted => ?_
  obtain ⟨ghosts, g'⟩ := q
  obtain ⟨follows, sifting, unsampled, leaves⟩ := sifted
  have table : g'.contents.table = b := follows.table
  rw [← table] at stripped
  refine settles_bind (Contents.yields_retireStripped h.strung hs home stripped unsampled).settles
    fun d done => ?_
  obtain ⟨store, account, emptied⟩ := done
  have sheds : Sheds [p] g.contents d :=
    Sheds.trans ⟨follows.sheds.others, follows.sheds.live, follows.sheds.terms, follows.sheds.occupied⟩
      (.of_live (fun i => by rw [store]) account)
  refine settles_pure ⟨h.next follows.target sheds emptied ?_, sheds, follows.target,
    emptied.segmentSize, ?_, emptied.inUse, emptied.sample?, fun k hk => ?_, fun i r hr => ?_, ?_⟩
  · dsimp only
    rw [emptied.lists, emptied.slots]
    refine ⟨?_, ?_, ?_, ?_⟩
    · dsimp only
      rw [store, account]
      exact sifting.ledger
    · dsimp only
      rw [emptied.segmentSize, ← stripped.segmentSize]
      exact sifting.fits
    · dsimp only
      rw [store, account]
      exact sifting.bytes
    · dsimp only
      rw [store]
      exact sifting.active
  · dsimp only
    rw [account]
    exact follows.count
  · exact emptied.others k (List.ne_of_not_mem_cons hk)
  · rw [show d.store.live? i = g'.contents.store.live? i by rw [store]] at hr
    exact follows.moved i r hr
  · dsimp only
    rw [store]
    refine leaves.congr fun i => Contents.leaving_singleton hs (fun i => ?_) i
    rw [← h.sifting.ledger.live p i, Function.update_of_ne apart, Table.liveObjects_of_live hs home]

/-- Emptying one parent after the other leaves none. -/
theorem Underway.settles_absorbAll {left : List Slot} {g : Merging} (h : g.Underway left) (m : Moment) :
    Settles t (left.foldlM (fun g parent => g.absorb parent m) g) fun g' =>
      g'.Underway [] ∧ Absorbs left g g' := by
  induction left generalizing g with
  | nil =>
    exact settles_pure ⟨h, .of_live (fun _ => rfl) rfl, rfl, rfl, rfl, rfl, rfl, fun _ _ => rfl,
      fun _ _ hr => .inl hr, (Store.Leaves.refl _).congr fun _ => by simp [Contents.leaving]⟩
  | cons p left ih =>
    rw [List.foldlM_cons]
    refine settles_bind (h.settles_absorb m) fun g' first => ?_
    obtain ⟨underway, absorbs⟩ := first
    refine (ih underway).mono fun g'' rest => ?_
    obtain ⟨done, absorbs'⟩ := rest
    refine ⟨done, ?_, absorbs'.target.trans absorbs.target,
      absorbs'.segmentSize.trans absorbs.segmentSize, absorbs'.count.trans absorbs.count, ?_,
      absorbs'.sample?.trans absorbs.sample?, fun k hk => ?_, fun i r hr => ?_, ?_⟩
    · have one : Sheds (p :: left) g.contents g'.contents := absorbs.sheds.mono fun q hq => by
        rw [List.mem_singleton.mp hq]
        exact List.mem_cons_self
      have others : Sheds (p :: left) g'.contents g''.contents :=
        absorbs'.sheds.mono fun q hq => List.mem_cons_of_mem p hq
      exact one.trans others
    · have one := absorbs.inUse
      have others := absorbs'.inUse
      simp only [List.length_cons, List.length_nil] at one ⊢
      omega
    · rw [List.mem_cons, not_or] at hk
      rw [absorbs'.others k hk.2, absorbs.others k (by simpa using hk.1)]
    · rcases absorbs'.moved i r hr with same | moved
      · exact absorbs.moved i r same
      · rw [absorbs.target] at moved
        exact .inr moved
    · have away : ∀ q ∈ left, q ≠ p ∧ q ≠ g.target := fun q hq =>
        ⟨fun e => (List.nodup_cons.mp h.nodup).1 (e ▸ hq), (h.parents q (List.mem_cons_of_mem p hq)).1⟩
      have same : ∀ i r, r.tag.segment ∈ left →
          (g'.contents.store.live? i = some r ↔ g.contents.store.live? i = some r) := by
        intro i r hr
        obtain ⟨apart, off⟩ := away _ hr
        refine ⟨fun found => (absorbs.moved i r found).resolve_right fun moved => off moved.1,
          fun found => absorbs.sheds.others i r found ?_⟩
        rw [List.mem_singleton]
        exact apart
      -- Emptying the first parent touches no object of the others.
      have later := Contents.leaving_congr
        (fun k hk => absorbs.others k (by simpa using (away k hk).1)) same
      refine (absorbs.leaves.trans absorbs'.leaves h.sifting.ledger.consistent ?_).congr fun i => ?_
      · rintro i ⟨r, -, hr, home, -⟩
        rw [hr, (same i r home).mp hr]
      · rw [Contents.leaving_cons, later]

theorem Underway.finish {g : Merging} (h : g.Underway []) : Contents.Sound { g.contents with
    table := g.contents.table.modify g.target fun s =>
      { s with objects := g.kept, bytes := g.keptBytes } } where
  strung := (h.strung.modify g.target
    (f := fun s => { s with objects := g.kept, bytes := g.keptBytes }) fun _ _ => ⟨rfl, rfl⟩).listed
  ranked := h.ranked.of_same (Arena.same_modify g.contents.table.segments g.target fun _ _ => rfl) rfl
  ledger := by
    obtain ⟨s, hs, live, -⟩ := h.target
    obtain ⟨lists, slots⟩ := Table.lists_modify hs live
      (f := fun s => { s with objects := g.kept, bytes := g.keptBytes }) rfl
    rw [lists, slots]
    exact h.sifting.ledger
  filled k u hu home := by
    obtain ⟨s, hs, -, -, active⟩ := h.target
    dsimp only at hu ⊢
    rw [Table.get?_modify] at hu
    split at hu
    · rename_i e
      rw [← e, hs] at hu
      cases hu
      exact ⟨h.sifting.fits, h.sifting.bytes, active.trans h.sifting.active.symm⟩
    · rename_i e
      exact h.filled k u (Ne.symm e) hu home

end Merging

namespace Contents

theorem commonBucket_eq {a : Table} {seqs : Nat → List Slot} (h : a.Strung seqs none) {run : List Slot}
    {k : Nat} (hk : k < liveBuckets) (mem : ∀ i ∈ run, i ∈ seqs k) (ne : run ≠ []) :
    commonBucket a run = .ok k := by
  have found : ∀ i ∈ run, ∃ s, a.get? i = some s ∧ s.bucket = k := fun i hi =>
    (h.mem_iff k i).mp (mem i hi)
  cases run with
  | nil => exact absurd rfl ne
  | cons i rest =>
    obtain ⟨s, hs, home⟩ := found i List.mem_cons_self
    have all : (i :: rest).all fun j => (a.get? j).any (·.bucket == k) := by
      rw [List.all_eq_true]
      intro j hj
      obtain ⟨u, hu, at_k⟩ := found j hj
      simp [hu, at_k]
    have away : k ≠ quarantine := Nat.ne_of_lt hk
    unfold commonBucket
    rw [List.head?_cons, Option.bind_some, hs, Option.map_some, home]
    exact if_pos ⟨away, all⟩

theorem Sound.settles_openTarget {c : Contents} (h : c.Sound) {run : List Slot} {k : Nat}
    (group : c.table.Group run k) (m : Moment) :
    Settles t (c.openTarget run m) fun q => q.2.store = c.store ∧ q.2.account = c.account ∧
      Table.Placed k run m q.1 c.table q.2.table := by
  cases run with
  | nil => exact absurd rfl group.ne
  | cons anchor rest =>
    have common := commonBucket_eq h.strung group.live group.mem group.ne
    unfold openTarget
    rw [common]
    refine settles_ok_bind ?_
    dsimp only
    refine settles_bind (h.strung.settles_allocate k m.time m.now) fun p made => ?_
    obtain ⟨i, a⟩ := p
    obtain ⟨strung, out, fresh, hs, others, -, -, ranking, size⟩ := made
    dsimp only at strung out fresh hs others ranking size ⊢
    refine settles_bind (settles_addCount _ _) fun merges more => ?_
    subst more
    rw [List.head?_cons]
    dsimp only
    have loose := strung.modify_loose (f := fun s => { s with
      rates := meanRates ((anchor :: rest).filterMap c.table.get?) (anchor :: rest).length,
      merges := (((anchor :: rest).filterMap c.table.get?).map (·.merges)).foldl max 0 + 1 })
      fun _ => rfl
    have get := fun j => a.get?_modify i j (f := fun s => { s with
      rates := meanRates ((anchor :: rest).filterMap c.table.get?) (anchor :: rest).length,
      merges := (((anchor :: rest).filterMap c.table.get?).map (·.merges)).foldl max 0 + 1 })
    have self := get i
    rw [if_pos rfl, hs, Option.map_some] at self
    have apart : ∀ j, j ≠ i → _ := fun j hj => (get j).trans ((if_neg (Ne.symm hj)).trans (others j hj))
    obtain ⟨l, r, at_anchor⟩ := List.append_of_mem (group.mem anchor List.mem_cons_self)
    obtain ⟨placed, same, ranking', size'⟩ := loose.insertBefore out self at_anchor
    have order : ∀ b, Table.chainOf _ b = Function.update c.table.chainOf k (l ++ i :: anchor :: r) b :=
      placed.chainOf_eq
    refine settles_pure ⟨rfl, rfl, ?_, ?_, ?_, fun k' hk => ?_, fun j hj => ?_⟩
    · exact .of_placed h.ranked fresh self (Nat.ne_of_lt group.live) ⟨rfl, rfl, rfl, rfl, rfl⟩ apart placed
        same (ranking'.trans ranking) (size'.trans size)
    · obtain ⟨u, hu, e⟩ := same.get? self
      refine ⟨u.links, hu.trans (congrArg some ?_)⟩
      have back := congrArg (Linked.withLinks · u.links) e
      exact back
    · have nodup := (h.strung.family.represents k).nodup
      rw [at_anchor] at nodup
      have once : ∀ j ∈ l ++ r, anchor ≠ j := by
        rw [List.nodup_middle, List.nodup_cons] at nodup
        rintro j hj rfl
        exact nodup.1 hj
      have alone : ∀ s : List Slot, (∀ j ∈ s, anchor ≠ j) →
          (s.flatMap fun p => if some anchor = some p then [i, p] else [p]) = s := by
        intro s away
        rw [List.flatMap_congr (g := fun p => [p]) fun p hp => if_neg fun e => away p hp (Option.some.inj e)]
        exact List.flatMap_singleton' s
      refine (order k).trans ?_
      dsimp only
      rw [Function.update_self, at_anchor, List.head?_cons, List.flatMap_append, List.flatMap_cons,
        if_pos rfl, alone l fun j hj => once j (List.mem_append_left r hj),
        alone r fun j hj => once j (List.mem_append_right l hj)]
      rfl
    · exact (order k').trans (Function.update_of_ne hk _ _)
    · rw [← apart j hj]
      exact same j

/-- Once its target is open the merge of a group is under way. -/
theorem Sound.underway {c d : Contents} (h : c.Sound) {run : List Slot} {k : Nat}
    (group : c.table.Group run k) {target : Slot}
    (opened : Table.Opened target c.table d.table) (store : d.store = c.store)
    (account : d.account = c.account) (cutoff : Float) (scores : List Float) :
    Merging.Underway ⟨d, target, cutoff, scores, #[], 0, 0, 0⟩ run := by
  obtain ⟨u, hu, home, objects, -, active, -⟩ := opened.segment
  obtain ⟨lists, slots⟩ := opened.lists_eq
  refine ⟨opened.strung, opened.ranked, ⟨?_, Nat.zero_le _, rfl, rfl⟩,
    ⟨u, hu, home, objects, active⟩, fun k s hk hs live => ?_, fun p hp => ?_, group.nodup⟩
  · have none : [] = c.table.liveObjects target := (Table.liveObjects_of_none opened.fresh).symm
    dsimp only
    rw [lists, slots, none, Function.update_eq_self, store, account]
    exact h.ledger
  · obtain ⟨v, hv, home, e⟩ := Table.exists_live_of_cargo (opened.others k hk) hs live
    dsimp only
    rw [opened.segmentSize, store, account]
    exact (h.filled k v hv home).of_cargo e
  · obtain ⟨s, hs, -, live⟩ := group.exists_segment h.strung hp
    have apart : p ≠ target := by
      intro e
      rw [e, opened.fresh] at hs
      cases hs
    obtain ⟨v, hv, home, -⟩ := Table.exists_live_of_cargo (opened.others p apart).symm hs live
    exact ⟨apart, v, hv, home⟩

/-- Some segments have been emptied, and so many objects given up. -/
structure Evicts (ps : List Slot) (n : Nat) (c d : Contents) : Prop where
  sound : d.Sound
  sheds : Sheds ps c d
  segmentSize : d.table.segmentSize = c.table.segmentSize
  count : n + d.account.objects = c.account.objects
  sample? : d.table.sample? = c.table.sample?
  stay : ∀ k g, c.table.get? k = some g → k ∉ ps → ∃ u, d.table.get? k = some u ∧ u.bucket = g.bucket
  moved : ∀ i r, d.store.live? i = some r →
    c.store.live? i = some r ∨ (c.table.get? r.tag.segment = none ∧ r.tag.seen = false)
  leaves : Store.Leaves (c.leaving ps) c.store d.store

theorem Evicts.of_carried {c d : Contents} {b : Table} {ps : List Slot} {n : Nat}
    (h : Evicts ps n { c with table := b } d) (carried : Table.Carried c.table b) : Evicts ps n c d where
  sound := h.sound
  sheds := ⟨h.sheds.others, h.sheds.live, h.sheds.terms, h.sheds.occupied⟩
  segmentSize := h.segmentSize.trans carried.segmentSize
  count := h.count
  sample? := h.sample?.trans carried.sample?_eq
  stay k g hg hk := by
    obtain ⟨v, hv, e⟩ := Table.exists_of_cargo (carried.same k).symm hg
    obtain ⟨u, hu, home⟩ := h.stay k v hv hk
    exact ⟨u, hu, home.trans (Segment.eq_of_cargo e).1⟩
  moved i r hr := by
    refine (h.moved i r hr).imp id fun moved => ⟨?_, moved.2⟩
    exact (carried.same.get?_eq_none_iff _).mp moved.1
  leaves := h.leaves.congr (leaving_congr (fun k _ => carried.same k) fun _ _ _ => .rfl)

theorem Sound.evicts_nothing {c : Contents} (h : c.Sound) : Evicts [] 0 c c where
  sound := h
  sheds := .of_live (fun _ => rfl) rfl
  segmentSize := rfl
  count := Nat.zero_add _
  sample? := rfl
  stay _ g hg _ := ⟨g, hg, rfl⟩
  moved _ _ hr := .inl hr
  leaves := (Store.Leaves.refl _).congr fun _ => by simp [leaving]

theorem Evicts.caches {c d : Contents} {ps : List Slot} {n : Nat} (h : Evicts ps n c d)
    (consistent : c.store.Consistent) {id : Nat} (cached : d.store.caches id = true) :
    c.store.caches id = true := by
  obtain ⟨i, r, hr, hid⟩ := (h.sound.ledger.consistent.caches_iff_live id).mp cached
  obtain ⟨u, hu, same⟩ := h.sheds.live i r hr
  exact (consistent.caches_iff_live id).mpr ⟨i, u, hu, same.id_eq.trans hid⟩

theorem Sound.settles_merge {c : Contents} (h : c.Sound) {run : List Slot} {n : Nat}
    (legal : (Choice.merge run).Legal c.table.chainOf n) (two : 1 < n) (scores : List Float)
    (cutoff : Float) (m : Moment) :
    Settles t (c.merge run scores cutoff m) fun q => Evicts run q.1.dropped c q.2 ∧
      q.2.table.inUse < c.table.inUse := by
  obtain ⟨k, group⟩ := Table.exists_group_of_legal legal (Nat.lt_of_succ_lt two)
  unfold merge
  refine settles_bind (h.settles_openTarget group m) fun q made => ?_
  obtain ⟨target, d⟩ := q
  obtain ⟨store, account, placed⟩ := made
  dsimp only at store account placed ⊢
  have opened := placed.toOpened
  have start := h.underway group opened store account cutoff scores
  refine settles_bind (start.settles_absorbAll m) fun g done => ?_
  obtain ⟨underway, absorbs⟩ := done
  have into : g.target = target := absorbs.target
  have sound := underway.finish
  rw [into] at sound
  have finished : (g.contents.table.modify target fun s =>
      { s with objects := g.kept, bytes := g.keptBytes }).sample? = g.contents.table.sample? :=
    g.contents.table.sample?_modify target fun _ _ => rfl
  refine settles_pure ⟨⟨sound, ?_, absorbs.segmentSize.trans opened.segmentSize, ?_,
    finished.trans (absorbs.sample?.trans opened.sample?_eq), fun k u hu hk => ?_, fun i r hr => ?_, ?_⟩, ?_⟩
  · have before : Sheds run c d := .of_live (fun i => by rw [store]) account
    have after : Sheds run g.contents { g.contents with
        table := g.contents.table.modify target fun s =>
          { s with objects := g.kept, bytes := g.keptBytes } } := .of_live (fun _ => rfl) rfl
    exact (before.trans absorbs.sheds).trans after
  · have count := absorbs.count
    dsimp only at count ⊢
    rw [Nat.zero_add, account] at count
    exact count
  · have apart : k ≠ target := by
      rintro rfl
      rw [opened.fresh] at hu
      cases hu
    have same := (absorbs.others k hk).trans (opened.others k apart)
    obtain ⟨v, hv, e⟩ := Table.exists_of_cargo same.symm hu
    refine ⟨v, ?_, (Segment.eq_of_cargo e).1⟩
    rw [Table.get?_modify, if_neg (Ne.symm apart)]
    exact hv
  · rcases absorbs.moved i r hr with same | moved
    · rw [← store]
      exact .inl same
    · rw [moved.1]
      exact .inr ⟨opened.fresh, moved.2⟩
  · have leaves := absorbs.leaves
    dsimp only at leaves
    rw [store] at leaves
    refine leaves.congr fun i => leaving_congr (fun k hk => opened.others k ?_) (fun j r _ => ?_) i
    · exact (start.parents k hk).1
    · rw [store]
  · have fewer : g.contents.table.inUse + run.length = d.table.inUse := absorbs.inUse
    have more : d.table.inUse = c.table.inUse + 1 := opened.inUse h.strung
    have length := legal.1
    show g.contents.table.inUse < c.table.inUse
    omega

theorem Sound.yields_evictSegment {c : Contents} (h : c.Sound) {p k : Slot} (hk : k < liveBuckets)
    (hp : p ∈ c.table.chainOf k) (m : Moment) :
    Yields (c.evictSegment p m) fun q => Evicts [p] q.1 c q.2 ∧ q.2.table.inUse < c.table.inUse := by
  obtain ⟨s, hs, at_k⟩ := (h.strung.mem_iff k p).mp hp
  have home : s.bucket ≠ quarantine := by
    rw [at_k]
    exact Nat.ne_of_lt hk
  unfold evictSegment
  rw [hs]
  dsimp only [takeObjects]
  rw [Table.objectsOf_of_get? hs]
  have stripped := Table.Stripped.of_modify h.strung h.ranked hs
    (f := fun s => { s with objects := #[], active := 0 }) ⟨rfl, rfl⟩ ⟨rfl, rfl⟩ ⟨rfl, rfl⟩
  have once : (c.table.modify p fun s => { s with objects := #[] }).modify p (fun s =>
      { s with active := 0 }) = c.table.modify p fun s => { s with objects := #[], active := 0 } :=
    Table.modify_modify c.table p _ _
  rw [once]
  generalize (c.table.modify p fun s => { s with objects := #[], active := 0 }) = b at stripped ⊢
  obtain ⟨lists, slots⟩ := Table.update_lists_of_live hs home
  have start : Ledger c.store c.account (Function.update c.table.liveObjects p s.objects.toList)
      (Function.update c.table.ghostSlots p []) := by
    rw [lists, slots]
    exact h.ledger
  refine yields_bind (yields_dropAll (c := { c with table := b }) s.sampled start) fun q dropped => ?_
  obtain ⟨n, ghosts, d⟩ := q
  obtain ⟨table, ledger, sheds, count, unsampled, fewer, leaves⟩ := dropped
  dsimp only at table ledger sheds count unsampled fewer leaves ⊢
  rw [← table] at stripped
  refine yields_bind (yields_retireStripped h.strung hs home stripped unsampled) fun e done => ?_
  obtain ⟨store, account, emptied⟩ := done
  have shed : Sheds [p] c e :=
    Sheds.trans ⟨sheds.others, sheds.live, sheds.terms, sheds.occupied⟩
      (.of_live (fun i => by rw [store]) account)
  refine yields_pure ⟨⟨⟨emptied.strung, emptied.ranked, ?_, fun k v hv live => ?_⟩, shed,
    emptied.segmentSize, ?_, emptied.sample?, fun k u hu hk => ?_, fun i r hr => .inl ?_, ?_⟩, ?_⟩
  · rw [emptied.lists, emptied.slots, store, account]
    exact ledger
  · exact emptied.filled shed h.ledger hv live rfl fun w hw home => h.filled k w hw home
  · dsimp only
    rw [account]
    exact count
  · obtain ⟨v, hv, e⟩ := Table.exists_of_cargo (emptied.others k (List.ne_of_not_mem_cons hk)).symm hu
    exact ⟨v, hv, (Segment.eq_of_cargo e).1⟩
  · rw [show e.store.live? i = d.store.live? i by rw [store]] at hr
    exact fewer i r hr
  · dsimp only
    rw [store]
    refine leaves.congr fun i => leaving_singleton hs (fun i => ?_) i
    rw [← h.ledger.live p i, Table.liveObjects_of_live hs home]
  · have less := emptied.inUse
    dsimp only
    omega

end Contents
end CacheReplay.GLCache
