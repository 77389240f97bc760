import CacheReplay.Proofs.GLCache.Compaction
import CacheReplay.Proofs.GLCache.Fates
import CacheReplay.Proofs.GLCache.Listing

set_option autoImplicit false

/-!
# What a merge does

A merge takes the parents out of their bucket and puts one segment in the place
of the first; the order of all others stays. The new segment lists the objects
that were kept, the sampled parents wait in the quarantine with the ghosts of
theirs, and the other parents are gone. Whatever is in another bucket or belongs
to another object is not touched.
-/
namespace CacheReplay.GLCache

variable {t : Tolerance}

theorem bare_retired {u s : Segment} (e : bare u = bare s) (ghosts : List Slot) (now : Int) :
    bare (u.retired ghosts now) = bare (s.retired ghosts now) := by
  have same := congrArg (fun v : Segment => bare (v.retired ghosts now)) e
  exact same

/-- Segments that list their own objects list different ones. -/
theorem nodup_flatMap_of_owners {s : Store ObjectTag} {ps : List Slot} {lists : Slot → List Slot}
    (nodup : ps.Nodup) (each : ∀ p ∈ ps, (lists p).Nodup)
    (owner : ∀ p ∈ ps, ∀ i, i ∈ lists p → ∃ r, s.live? i = some r ∧ r.tag.segment = p) :
    (ps.flatMap lists).Nodup := by
  rw [List.nodup_flatMap]
  refine ⟨each, nodup.imp_of_mem fun hp hq apart i first second => ?_⟩
  obtain ⟨r, hr, at_p⟩ := owner _ hp i first
  obtain ⟨u, hu, at_q⟩ := owner _ hq i second
  cases hr.symm.trans hu
  exact apart (at_p.symm.trans at_q)

namespace Table
variable {a b c : Table} {p : Slot} {s : Segment} {ps : List Slot} {k : Nat} {now : Int}

def isSampled (a : Table) (p : Slot) : Bool := (a.get? p).any (·.sampled)

theorem get?_eq_of_chain (ha : a.Strung a.chainOf none) (hb : b.Strung b.chainOf none)
    (chain : b.chainOf k = a.chainOf k) (mem : p ∈ a.chainOf k)
    (same : (b.get? p).map bare = (a.get? p).map bare) : b.get? p = a.get? p := by
  obtain ⟨n, hn, at_p⟩ := List.getElem_of_mem mem
  have before := (ha.family.represents k).links_eq n hn
  have after := (hb.family.represents k).links_eq n (by rw [chain]; exact hn)
  simp only [chain] at after
  have links : b.segments.links? p = a.segments.links? p := by
    rw [← at_p, before, after]
  cases hs : a.get? p with
  | none =>
    rw [hs] at same
    exact Option.map_eq_none_iff.mp same
  | some s =>
    rw [hs] at same
    obtain ⟨u, hu, e⟩ := Option.map_eq_some_iff.mp same
    have alike : u.links = s.links := by
      have read := links
      rw [Arena.links?, Arena.links?, show a.segments.get? p = some s from hs,
        show b.segments.get? p = some u from hu] at read
      exact Option.some.inj read
    have back := congrArg (Linked.withLinks · u.links) e
    rw [hu]
    refine congrArg some (back.trans ?_)
    rw [alike]
    rfl

/-- Some segments of a bucket were emptied one by one, the sampled ones with ghosts as `left` says. -/
structure Evacuated (k : Nat) (ps : List Slot) (now : Int) (left : Slot → List Slot → Prop)
    (a b : Table) : Prop where
  chain : b.chainOf k = (a.chainOf k).filter (· ∉ ps)
  waiting : b.chainOf quarantine = a.chainOf quarantine ++ ps.filter a.isSampled
  elsewhere : ∀ k', k' ≠ k → k' ≠ quarantine → b.chainOf k' = a.chainOf k'
  freed : ∀ p ∈ ps, a.isSampled p = false → b.get? p = none
  retired : ∀ p ∈ ps, ∀ s, a.get? p = some s → s.sampled = true → ∃ ghosts, left p ghosts ∧
    (b.get? p).map bare = some (bare (s.retired ghosts now))
  others : ∀ j, j ∉ ps → (b.get? j).map bare = (a.get? j).map bare

theorem evacuated_nil {left : Slot → List Slot → Prop} : Evacuated k [] now left a a where
  chain := by simp
  waiting := by simp
  elsewhere _ _ _ := rfl
  freed _ hp := absurd hp List.not_mem_nil
  retired _ hp := absurd hp List.not_mem_nil
  others _ _ := rfl

theorem isSampled_of_bare {j : Slot} (h : (b.get? j).map bare = (a.get? j).map bare) :
    b.isSampled j = a.isSampled j := by
  have read : ∀ o : Option Segment, o.any (·.sampled) = (o.map bare).any (·.sampled) := by
    intro o
    cases o <;> rfl
  rw [isSampled, isSampled, read, h, ← read]

theorem objectsOf_of_bare {j : Slot} (h : (b.get? j).map bare = (a.get? j).map bare) :
    b.objectsOf j = a.objectsOf j := by
  have read : ∀ o : Option Segment, o.map (·.objects.toList) = (o.map bare).map (·.objects.toList) := by
    intro o
    cases o <;> rfl
  rw [objectsOf, objectsOf, read, h, ← read]

theorem evacuated_of_vacated {left : Slot → List Slot → Prop} {ghosts : List Slot}
    (ha : a.Strung a.chainOf none) (hs : a.get? p = some s) (h : Vacated p s ghosts now a b)
    (leaves : left p ghosts) : Evacuated s.bucket [p] now left a b := by
  have at_p : a.isSampled p = s.sampled := by
    rw [isSampled, hs]
    rfl
  refine ⟨?_, ?_, h.elsewhere, fun q hq unsampled => ?_, fun q hq u hu sampled => ⟨ghosts, ?_⟩,
    fun j hj => h.others j (List.ne_of_not_mem_cons hj)⟩
  · rw [h.chain, (ha.family.represents s.bucket).nodup.erase_eq_filter]
    refine List.filter_congr fun j _ => ?_
    rw [Bool.eq_iff_iff]
    simp
  · rw [h.waiting, List.filter_cons, at_p, List.filter_nil]
  · rw [List.mem_singleton] at hq
    rw [hq] at unsampled ⊢
    exact h.freed (at_p.symm.trans unsampled)
  · rw [List.mem_singleton] at hq
    rw [hq, hs] at hu
    cases hu
    rw [hq]
    exact ⟨leaves, h.retired sampled⟩

theorem Evacuated.append {left : Slot → List Slot → Prop} {qs : List Slot} (h : Evacuated k ps now left a b)
    (l : Evacuated k qs now left b c) (disjoint : ps.Disjoint qs) :
    Evacuated k (ps ++ qs) now left a c := by
  have before : ∀ q ∈ qs, (b.get? q).map bare = (a.get? q).map bare := fun q hq =>
    h.others q fun hp => disjoint hp hq
  have after : ∀ p ∈ ps, (c.get? p).map bare = (b.get? p).map bare := fun p hp =>
    l.others p fun hq => disjoint hp hq
  have sampled : ∀ q ∈ qs, b.isSampled q = a.isSampled q := fun q hq => isSampled_of_bare (before q hq)
  constructor
  · rw [l.chain, h.chain, List.filter_filter]
    refine List.filter_congr fun j _ => ?_
    rw [Bool.eq_iff_iff]
    simp [and_comm]
  · rw [l.waiting, h.waiting, List.filter_congr sampled, List.filter_append, List.append_assoc]
  · intro k' hk away
    rw [l.elsewhere k' hk away, h.elsewhere k' hk away]
  · intro q hq unsampled
    rcases List.mem_append.mp hq with first | second
    · have gone := after q first
      rw [h.freed q first unsampled] at gone
      exact Option.map_eq_none_iff.mp gone
    · exact l.freed q second ((sampled q second).trans unsampled)
  · intro q hq u hu sampled
    rcases List.mem_append.mp hq with first | second
    · obtain ⟨ghosts, leaves, found⟩ := h.retired q first u hu sampled
      exact ⟨ghosts, leaves, (after q first).trans found⟩
    · have same := before q second
      rw [hu] at same
      obtain ⟨v, hv, e⟩ := Option.map_eq_some_iff.mp same
      have still : v.sampled = u.sampled := congrArg (·.sampled) e
      obtain ⟨ghosts, leaves, found⟩ := l.retired q second v hv (still.trans sampled)
      exact ⟨ghosts, leaves, found.trans (congrArg some (bare_retired e ghosts now))⟩
  · intro j hj
    rw [List.mem_append, not_or] at hj
    rw [l.others j hj.2, h.others j hj.1]

theorem Evacuated.mono {left left' : Slot → List Slot → Prop} (h : Evacuated k ps now left a b)
    (imp : ∀ p ∈ ps, ∀ ghosts, left p ghosts → left' p ghosts) : Evacuated k ps now left' a b where
  chain := h.chain
  waiting := h.waiting
  elsewhere := h.elsewhere
  freed := h.freed
  others := h.others
  retired p hp s hs sampled := by
    obtain ⟨ghosts, leaves, found⟩ := h.retired p hp s hs sampled
    exact ⟨ghosts, imp p hp ghosts leaves, found⟩

theorem Vacated.of_stripped {ghosts : List Slot} (ha : a.Strung a.chainOf none)
    (h : Vacated p { s with objects := #[] } ghosts now (a.modify p fun s => { s with objects := #[] }) b) :
    Vacated p s ghosts now a b := by
  have same := (ha.modify p (f := fun s => { s with objects := #[] }) fun _ _ => ⟨rfl, rfl⟩).chainOf_eq
  refine ⟨h.strung, h.ranked, ?_, ?_, fun k hk away => ?_, h.freed, h.retired, fun k hk => ?_, h.segmentSize⟩
  · rw [h.chain, same]
  · rw [h.waiting, same]
  · rw [h.elsewhere k hk away, same]
  · rw [h.others k hk, get?_modify, if_neg (Ne.symm hk)]

/-- Putting a segment before the first of some that go away puts it in its place. -/
theorem filter_flatMap_place {parents : List Slot} {target : Slot} (out : target ∉ parents) (l : List Slot) :
    (l.flatMap fun p => if parents.head? = some p then [target, p] else [p]).filter (· ∉ parents) =
      (l.map fun p => if parents.head? = some p then target else p).filter (· ∉ parents) := by
  induction l with
  | nil => rfl
  | cons p l ih =>
    rw [List.flatMap_cons, List.map_cons, List.filter_append, ih, List.filter_cons]
    by_cases first : parents.head? = some p
    · simp [first, out, List.mem_of_head? first]
    · by_cases mem : p ∈ parents <;> simp [first, mem]

/-- Where segments of bucket `k` went when one target took the place of them all. -/
structure Rewired (k : Nat) (parents : List Slot) (target : Slot) (a b : Table) : Prop where
  fresh : a.get? target = none
  chain : b.chainOf k =
    ((a.chainOf k).map fun p => if parents.head? = some p then target else p).filter (· ∉ parents)
  waiting : b.chainOf quarantine = a.chainOf quarantine ++ parents.filter a.isSampled
  elsewhere : ∀ k', k' ≠ k → k' ≠ quarantine → b.chainOf k' = a.chainOf k' ∧
    ∀ j ∈ a.chainOf k', b.get? j = a.get? j
  freed : ∀ p ∈ parents, a.isSampled p = false → b.get? p = none
  bystanders : ∀ j, j ∉ parents → j ≠ target → (b.get? j).map bare = (a.get? j).map bare

section
variable {parents : List Slot} {target : Slot} {m : Moment} {left : Slot → List Slot → Prop}
  {f : Segment → Segment} (group : a.Group parents k) (ha : a.Strung a.chainOf none)
  (placed : Placed k parents m target a b)
include group ha placed

theorem Placed.apart : target ∉ parents := by
  intro mem
  obtain ⟨s, hs, -⟩ := group.exists_segment ha mem
  rw [placed.fresh] at hs
  cases hs

theorem Placed.same_parents {p : Slot} (hp : p ∈ parents) :
    (b.get? p).map bare = (a.get? p).map bare :=
  placed.same p fun e => placed.apart group ha (e ▸ hp)

/-- The target is placed, the parents are emptied, and the target is filled. -/
theorem Placed.rewired (emptied : Evacuated k parents now left b c) (hc : c.Strung c.chainOf none)
    (hf : ∀ s, (f s).links = s.links ∧ (f s).bucket = s.bucket) :
    Rewired k parents target a (c.modify target f) := by
  have out := placed.apart group ha
  have away : k ≠ quarantine := Nat.ne_of_lt group.live
  have strung := hc.modify target (f := f) fun s _ => hf s
  have sampled : ∀ p ∈ parents, b.isSampled p = a.isSampled p := fun p hp =>
    isSampled_of_bare (placed.same_parents group ha hp)
  have off : ∀ j, j ≠ target → (c.modify target f).get? j = c.get? j := fun j hj =>
    (c.get?_modify target j f).trans (if_neg (Ne.symm hj))
  have bystanders : ∀ j, j ∉ parents → j ≠ target →
      ((c.modify target f).get? j).map bare = (a.get? j).map bare := by
    intro j hj apart
    rw [off j apart, emptied.others j hj, placed.same j apart]
  refine ⟨placed.fresh, ?_, ?_, fun k' hk live => ?_, fun p hp unsampled => ?_, bystanders⟩
  · rw [strung.chainOf_eq, emptied.chain, placed.chain, filter_flatMap_place out]
  · rw [strung.chainOf_eq, emptied.waiting, placed.elsewhere quarantine (Ne.symm away),
      List.filter_congr sampled]
  · have chain : (c.modify target f).chainOf k' = a.chainOf k' := by
      rw [strung.chainOf_eq, emptied.elsewhere k' hk live, placed.elsewhere k' hk]
    refine ⟨chain, fun j hj => get?_eq_of_chain ha strung.listed chain hj ?_⟩
    obtain ⟨s, hs, home⟩ := (ha.mem_iff k' j).mp hj
    refine bystanders j (fun mem => ?_) fun e => ?_
    · obtain ⟨u, hu, home', -⟩ := group.exists_segment ha mem
      cases hs.symm.trans hu
      exact hk (home.symm.trans home')
    · rw [e, placed.fresh] at hs
      cases hs
  · rw [off p fun e => out (e ▸ hp)]
    exact emptied.freed p hp ((sampled p hp).trans unsampled)

theorem Placed.retired (emptied : Evacuated k parents now left b c) {p : Slot} (hp : p ∈ parents)
    {s : Segment} (hs : a.get? p = some s) (sampled : s.sampled = true) : ∃ ghosts, left p ghosts ∧
      ((c.modify target f).get? p).map bare = some (bare (s.retired ghosts now)) := by
  have found := placed.same_parents group ha hp
  rw [hs] at found
  obtain ⟨v, hv, e⟩ := Option.map_eq_some_iff.mp found
  have still : v.sampled = s.sampled := congrArg (·.sampled) e
  obtain ⟨ghosts, leaves, retired⟩ := emptied.retired p hp v hv (still.trans sampled)
  have apart : target ≠ p := fun same => placed.apart group ha (same ▸ hp)
  refine ⟨ghosts, leaves, ?_⟩
  rw [get?_modify, if_neg apart, retired, bare_retired e]

theorem Placed.filled (emptied : Evacuated k parents now left b c) (hf : ∀ s, bare (f s) = bare (f (bare s))) :
    ((c.modify target f).get? target).map bare = some (bare (f (a.heir k parents m))) := by
  obtain ⟨l, hl⟩ := placed.heir
  have found := emptied.others target (placed.apart group ha)
  rw [hl, Option.map_some] at found
  obtain ⟨u, hu, e⟩ := Option.map_eq_some_iff.mp found
  rw [get?_modify, if_pos rfl, hu, Option.map_some, Option.map_some, hf, e, hf (a.heir k parents m)]
  rfl

end

end Table

namespace Merging
variable {g g' g'' : Merging} {haunts : Record ObjectTag → Bool} {kept left : List Slot} {k : Nat}
  {p : Slot} {m : Moment}

theorem promise_congr (kept : g'.kept = g.kept) (cutoff : g'.cutoff = g.cutoff)
    (scores : g'.scores = g.scores)
    (segmentSize : g'.contents.table.segmentSize = g.contents.table.segmentSize) (objects : List Slot) :
    g'.promise objects = g.promise objects := by
  rw [promise, promise, kept, cutoff, scores, segmentSize]

/-- The parents that are still to be emptied are of one bucket, and some of their objects haunt. -/
structure Expects (haunts : Record ObjectTag → Bool) (k : Nat) (ps : List Slot) (g : Merging) : Prop where
  home : ∀ p ∈ ps, ∀ s, g.contents.table.get? p = some s → s.bucket = k
  haunting : ∀ r : Record ObjectTag, r.tag.segment ∈ ps →
    haunts r = (g.contents.table.isSampled r.tag.segment && !r.tag.seen)

/-- Parents were emptied into the target, which gets no more than the objects `kept`. -/
structure Absorbed (haunts : Record ObjectTag → Bool) (kept : List Slot) (k : Nat) (ps : List Slot)
    (now : Int) (g g' : Merging) : Prop where
  advances : Advances (ps.flatMap g.contents.table.objectsOf) g g'
  sifted : ∃ gs, g'.ghosted = g.ghosted + gs.length ∧
    Sifted g.target haunts kept (ps.flatMap g.contents.table.objectsOf) gs g.contents.store
      g'.contents.store
  evacuated : Table.Evacuated k ps now
    (fun p gs => Haunted haunts (g.contents.table.objectsOf p) gs g.contents.store g'.contents.store)
    g.contents.table g'.contents.table

theorem Underway.listed (h : g.Underway left) (hp : p ∈ left) (i : Slot) :
    i ∈ g.contents.table.objectsOf p ↔ ∃ r, g.contents.store.live? i = some r ∧ r.tag.segment = p := by
  obtain ⟨apart, s, hs, home⟩ := h.parents p hp
  rw [← h.sifting.ledger.live p i, Function.update_of_ne apart, Table.liveObjects_of_live hs home,
    Table.objectsOf_of_get? hs]

theorem Underway.nodup_objects (h : g.Underway left) : (left.flatMap g.contents.table.objectsOf).Nodup := by
  refine nodup_flatMap_of_owners h.nodup (fun p hp => ?_) fun p hp i => (h.listed hp i).mp
  obtain ⟨apart, s, hs, home⟩ := h.parents p hp
  have nodup := h.sifting.ledger.nodup p
  rw [Function.update_of_ne apart, Table.liveObjects_of_live hs home] at nodup
  rw [Table.objectsOf_of_get? hs]
  exact nodup

theorem Underway.haunting (h : g.Underway (p :: left)) (expects : g.Expects haunts k (p :: left)) {s : Segment}
    (hs : g.contents.table.get? p = some s) : ∀ i ∈ s.objects.toList, ∀ r,
      g.contents.store.live? i = some r → haunts r = (s.sampled && !r.tag.seen) := by
  intro i hi r hr
  have sampled : g.contents.table.isSampled p = s.sampled := by
    rw [Table.isSampled, hs]
    rfl
  rw [← Table.objectsOf_of_get? hs] at hi
  obtain ⟨u, hu, owner⟩ := (h.listed List.mem_cons_self i).mp hi
  cases hr.symm.trans hu
  rw [expects.haunting r (by rw [owner]; exact List.mem_cons_self), owner, sampled]

theorem Underway.settles_absorb_fates (h : g.Underway (p :: left)) (expects : g.Expects haunts k (p :: left))
    (m : Moment) : Settles t (g.absorb p m) fun g' =>
      Absorbed haunts (g.promise ((p :: left).flatMap g.contents.table.objectsOf)) k [p] m.now g g' := by
  obtain ⟨apart, s, hs, home⟩ := h.parents p List.mem_cons_self
  have nodup := h.nodup_objects
  have haunting := h.haunting expects hs
  have at_k := expects.home p List.mem_cons_self s hs
  rw [List.flatMap_cons, Table.objectsOf_of_get? hs] at nodup ⊢
  unfold absorb
  rw [hs]
  dsimp only [Contents.takeObjects]
  rw [Table.objectsOf_of_get? hs]
  generalize e : (g.contents.table.modify p fun s => { s with objects := #[] }) = b
  obtain ⟨stripped, start⟩ := h.begin hs home e.symm
  refine settles_bind ((start.settles_siftAll_fates apart haunting nodup).and
    (start.settles_siftAll s.sampled apart)) fun q sifted => ?_
  obtain ⟨ghosts, g'⟩ := q
  obtain ⟨⟨advances, ghosted, sifted⟩, follows, -, unsampled, -⟩ := sifted
  dsimp only at ghosted unsampled
  have table : g'.contents.table = b := follows.table
  have taken : b.get? p = some { s with objects := #[] } := by
    rw [← e, Table.get?_modify, if_pos rfl, hs]
    rfl
  rw [← table] at stripped taken
  refine settles_bind (Contents.yields_retireOrFree ghosts m stripped.strung stripped.ranked taken
    home).settles fun d done => ?_
  obtain ⟨store, account, vacated⟩ := done
  have size : d.table.segmentSize = g'.contents.table.segmentSize := vacated.segmentSize
  rw [table, ← e] at vacated
  have promised : ∀ objects, Merging.promise { g with contents := { g.contents with table := b } } objects =
      g.promise objects := promise_congr rfl rfl rfl (by rw [← e]; rfl)
  rw [promised] at sifted
  rw [← store] at sifted
  refine settles_pure ⟨⟨advances.target, size.trans stripped.segmentSize, fun later => ?_, ?_⟩, ⟨ghosts, ?_, ?_⟩, ?_⟩
  · rw [List.flatMap_singleton, Table.objectsOf_of_get? hs, ← promised, ← advances.promise]
    exact promise_congr (by rfl) (by rfl) (by rfl) size _
  · rw [List.flatMap_singleton, Table.objectsOf_of_get? hs]
    exact advances.count
  · dsimp only at ghosted ⊢
    split
    · rw [ghosted]
    · rename_i out
      rw [unsampled (Bool.eq_false_of_not_eq_true out), ghosted]
      rfl
  · rw [List.flatMap_singleton, Table.objectsOf_of_get? hs]
    exact sifted
  · rw [← at_k]
    refine Table.evacuated_of_vacated h.strung hs (vacated.of_stripped h.strung) ?_
    rw [Table.objectsOf_of_get? hs]
    exact sifted.ghosts

theorem Absorbed.cons (h : g.Underway (p :: left)) (h' : g'.Underway left) {now : Int}
    (first : Absorbed haunts kept k [p] now g g') (rest : Absorbed haunts kept k left now g' g'') :
    Absorbed haunts kept k (p :: left) now g g'' := by
  have out := (List.nodup_cons.mp h.nodup).1
  have consistent := h.sifting.ledger.consistent
  have same : ∀ q ∈ left, g'.contents.table.objectsOf q = g.contents.table.objectsOf q := fun q hq =>
    Table.objectsOf_of_bare <| first.evacuated.others q fun mem => out (List.mem_singleton.mp mem ▸ hq)
  have lists : left.flatMap g'.contents.table.objectsOf = left.flatMap g.contents.table.objectsOf :=
    List.flatMap_congr same
  have disjoint : (g.contents.table.objectsOf p).Disjoint (left.flatMap g.contents.table.objectsOf) := by
    have nodup := h.nodup_objects
    rw [List.flatMap_cons, List.nodup_append'] at nodup
    exact nodup.2.2
  have live : ∀ q ∈ p :: left, ∀ i ∈ g.contents.table.objectsOf q, ∃ r, g.contents.store.live? i = some r := by
    intro q hq i hi
    obtain ⟨r, hr, -⟩ := (h.listed hq i).mp hi
    exact ⟨r, hr⟩
  obtain ⟨advances, ⟨gs, count, sifted⟩, evacuated⟩ := first
  obtain ⟨advances', ⟨gs', count', sifted'⟩, evacuated'⟩ := rest
  rw [List.flatMap_singleton] at advances sifted
  rw [lists] at advances' sifted'
  rw [advances.target] at sifted'
  have live' : ∀ i ∈ left.flatMap g.contents.table.objectsOf, ∃ r, g.contents.store.live? i = some r := by
    intro i hi
    obtain ⟨q, hq, hi⟩ := List.mem_flatMap.mp hi
    exact live q (List.mem_cons_of_mem p hq) i hi
  have still : ∀ i ∈ left.flatMap g.contents.table.objectsOf,
      g'.contents.store.live? i = g.contents.store.live? i := fun i hi =>
    sifted.still consistent h'.sifting.ledger.consistent (live' i hi) fun hi' => disjoint hi' hi
  refine ⟨advances.trans advances', ⟨gs ++ gs', ?_, ?_⟩, ?_⟩
  · rw [count', count, List.length_append, Nat.add_assoc]
  · exact sifted.append sifted' consistent h'.sifting.ledger.consistent live' disjoint
  · refine (evacuated.mono fun q hq ghosts leaves => ?_).append (evacuated'.mono fun q hq ghosts leaves => ?_)
      (List.singleton_disjoint.mpr out)
    · -- What the first parent left behind is not disturbed by the others.
      rw [List.mem_singleton] at hq
      refine leaves.congr (fun _ _ => rfl) fun i hi r hr => sifted'.settled consistent still hr fun later => ?_
      rw [hq] at hi
      exact disjoint hi later
    · rw [same q hq] at leaves
      exact leaves.congr (fun i hi => (still i (List.mem_flatMap_of_mem hq hi)).symm) fun _ _ _ _ => rfl

theorem Underway.settles_absorbAll_fates (h : g.Underway left) (expects : g.Expects haunts k left)
    (m : Moment) : Settles t (left.foldlM (fun g parent => g.absorb parent m) g) fun g' =>
      Absorbed haunts (g.promise (left.flatMap g.contents.table.objectsOf)) k left m.now g g' := by
  induction left generalizing g with
  | nil => exact settles_pure ⟨.refl g, ⟨[], rfl, .nil _⟩, Table.evacuated_nil⟩
  | cons p left ih =>
    have out := (List.nodup_cons.mp h.nodup).1
    rw [List.foldlM_cons]
    refine settles_bind ((h.settles_absorb_fates expects m).and (h.settles_absorb m)) fun g' first => ?_
    obtain ⟨first, underway, -⟩ := first
    have same : ∀ q ∈ left, (g'.contents.table.get? q).map bare = (g.contents.table.get? q).map bare :=
      fun q hq => first.evacuated.others q fun mem => out (List.mem_singleton.mp mem ▸ hq)
    have expects' : g'.Expects haunts k left := by
      refine ⟨fun q hq s hs => ?_, fun r hr => ?_⟩
      · have found := same q hq
        rw [hs] at found
        obtain ⟨u, hu, e⟩ := Option.map_eq_some_iff.mp found.symm
        have bucket : u.bucket = s.bucket := congrArg (·.bucket) e
        rw [← bucket]
        exact expects.home q (List.mem_cons_of_mem p hq) u hu
      · rw [Table.isSampled_of_bare (same _ hr)]
        exact expects.haunting r (List.mem_cons_of_mem p hr)
    refine (ih underway expects').mono fun g'' rest => ?_
    have lists : left.flatMap g'.contents.table.objectsOf = left.flatMap g.contents.table.objectsOf :=
      List.flatMap_congr fun q hq => Table.objectsOf_of_bare (same q hq)
    rw [lists, first.advances.promise, List.flatMap_singleton, ← List.flatMap_cons] at rest
    exact first.cons h underway rest

theorem Underway.yields_absorbAll_of_few (h : g.Underway left) (few : ∀ i r,
    g.contents.store.live? i = some r → r.tag.segment ∈ left → r.tag.freq + 1 < countBound) (m : Moment) :
    Yields (left.foldlM (fun g parent => g.absorb parent m) g) fun _ => True := by
  induction left generalizing g with
  | nil => exact yields_pure trivial
  | cons p left ih =>
    rw [List.foldlM_cons]
    refine yields_bind (h.yields_absorb (fun i hi r hr => few i r hr ?_) m) fun g' done => ?_
    · obtain ⟨u, hu, home⟩ := (h.listed List.mem_cons_self i).mp hi
      cases hr.symm.trans hu
      rw [home]
      exact List.mem_cons_self
    · obtain ⟨underway, absorbs⟩ := done
      refine ih underway fun i r hr home => ?_
      rcases absorbs.moved i r hr with old | ⟨moved, -⟩
      · exact few i r old (List.mem_cons_of_mem p home)
      · rw [moved] at home
        exact absurd rfl (h.parents _ (List.mem_cons_of_mem p home)).1

end Merging

namespace Contents
variable {c d : Contents} {parents : List Slot} {k : Nat}

/-- The objects that a merge keeps, the first that reach the cutoff. -/
def survivors (c : Contents) (parents : List Slot) (scores : List Float) (cutoff : Float) : List Slot :=
  (reaching cutoff scores (parents.flatMap c.table.objectsOf)).take c.table.segmentSize

/-- Whether a record leaves a ghost when its object is moved or dropped. -/
def haunts (c : Contents) (r : Record ObjectTag) : Bool :=
  c.table.isSampled r.tag.segment && !r.tag.seen

/-- What the counters must have room for. -/
structure Countable (c : Contents) (parents : List Slot) : Prop where
  hits : ∀ i ∈ parents.flatMap c.table.objectsOf, ∀ r, c.store.live? i = some r →
    r.tag.freq + 1 < countBound
  merges : ((parents.filterMap c.table.get?).map (·.merges)).foldl max 0 + 1 < countBound
  number : IsWord (c.table.nextId + 1)

/-- What merging segments of bucket `k` makes of contents. Segments are compared but for their links. -/
structure Consolidated (c : Contents) (k : Nat) (parents : List Slot) (scores : List Float)
    (cutoff : Float) (m : Moment) (target : Slot) (y : Yield) (d : Contents) : Prop where
  sound : d.Sound
  live : ∀ i, d.store.live? i =
    if i ∈ c.survivors parents scores cutoff then (c.store.live? i).map (movedTo target)
    else if i ∈ parents.flatMap c.table.objectsOf then none else c.store.live? i
  fate : ∀ i ∈ parents.flatMap c.table.objectsOf, ∀ r, c.store.live? i = some r →
    Fate target (i ∈ c.survivors parents scores cutoff) (c.haunts r) i r (c.store.catalogue r.id)
      (d.store.catalogue r.id)
  others : ∀ id, (∀ i ∈ parents.flatMap c.table.objectsOf, ∀ r, c.store.live? i = some r → r.id ≠ id) →
    d.store.catalogue id = c.store.catalogue id
  rewired : Table.Rewired k parents target c.table d.table
  filled : (d.table.get? target).map bare = some (bare { c.table.heir k parents m with
    objects := (c.survivors parents scores cutoff).toArray
    bytes := heldBytes d.store d.account.overhead (c.survivors parents scores cutoff) })
  retired : ∀ p ∈ parents, ∀ s, c.table.get? p = some s → s.sampled = true → ∃ ghosts,
    Haunted c.haunts s.objects.toList ghosts c.store d.store ∧
      (d.table.get? p).map bare = some (bare (s.retired ghosts m.now))
  kept : y.kept = (c.survivors parents scores cutoff).length
  counted : y.kept + y.dropped = (parents.flatMap c.table.objectsOf).length
  ghosted : y.ghosted = ((parents.flatMap c.table.objectsOf).filterMap c.store.live?).countP c.haunts
  released : y.dropped + d.account.objects = c.account.objects

theorem mem_of_mem_survivors {scores : List Float} {cutoff : Float} {i : Slot}
    (hi : i ∈ c.survivors parents scores cutoff) : i ∈ parents.flatMap c.table.objectsOf := by
  obtain ⟨e, he, same⟩ := List.mem_map.mp (List.mem_of_mem_take hi)
  have mem := List.fst_mem_of_mem_zipIdx (List.mem_filter.mp he).1
  exact same ▸ mem

theorem Sound.listed (h : c.Sound) (group : c.table.Group parents k) {p : Slot} (hp : p ∈ parents) (i : Slot) :
    i ∈ c.table.objectsOf p ↔ ∃ r, c.store.live? i = some r ∧ r.tag.segment = p := by
  obtain ⟨s, hs, -, home⟩ := group.exists_segment h.strung hp
  rw [← h.ledger.live p i, Table.liveObjects_of_live hs home, Table.objectsOf_of_get? hs]

theorem Sound.nodup_objects (h : c.Sound) (group : c.table.Group parents k) :
    (parents.flatMap c.table.objectsOf).Nodup := by
  refine nodup_flatMap_of_owners group.nodup (fun p hp => ?_) fun p hp i => (h.listed group hp i).mp
  obtain ⟨s, hs, -, home⟩ := group.exists_segment h.strung hp
  have nodup := h.ledger.nodup p
  rw [Table.liveObjects_of_live hs home] at nodup
  rw [Table.objectsOf_of_get? hs]
  exact nodup

theorem Sound.exists_live (h : c.Sound) (group : c.table.Group parents k) {i : Slot}
    (hi : i ∈ parents.flatMap c.table.objectsOf) : ∃ r, c.store.live? i = some r := by
  obtain ⟨p, hp, hi⟩ := List.mem_flatMap.mp hi
  obtain ⟨r, hr, -⟩ := (h.listed group hp i).mp hi
  exact ⟨r, hr⟩

variable {target : Slot} {cutoff : Float} {scores : List Float} {m : Moment}

theorem expects_of_placed (h : c.Sound) (group : c.table.Group parents k) (cutoff : Float) (scores : List Float)
    (placed : Table.Placed k parents m target c.table d.table) :
    Merging.Expects c.haunts k parents ⟨d, target, cutoff, scores, #[], 0, 0, 0⟩ := by
  have same := fun p (hp : p ∈ parents) => placed.same_parents group h.strung hp
  refine ⟨fun p hp s hs => ?_, fun r hr => ?_⟩
  · obtain ⟨u, hu, home, -⟩ := group.exists_segment h.strung hp
    have found := same p hp
    rw [show d.table.get? p = some s from hs, hu] at found
    have bucket : s.bucket = u.bucket := congrArg (·.bucket) (Option.some.inj found)
    exact bucket.trans home
  · rw [haunts, Table.isSampled_of_bare (same _ hr)]

theorem consolidated_of_absorbed {g : Merging} (h : c.Sound) (group : c.table.Group parents k)
    (placed : Table.Placed k parents m target c.table d.table) (store : d.store = c.store)
    (account : d.account = c.account) (underway : g.Underway [])
    (absorbs : Merging.Absorbs parents ⟨d, target, cutoff, scores, #[], 0, 0, 0⟩ g)
    (absorbed : Merging.Absorbed c.haunts (c.survivors parents scores cutoff) k parents m.now
      ⟨d, target, cutoff, scores, #[], 0, 0, 0⟩ g)
    (kept : g.kept.toList = c.survivors parents scores cutoff) :
    c.Consolidated k parents scores cutoff m target ⟨g.kept.size, g.dropped, g.ghosted⟩
      { g.contents with table := g.contents.table.modify target fun s =>
          { s with objects := g.kept, bytes := g.keptBytes } } := by
  have into : g.target = target := absorbs.target
  have sound := underway.finish
  rw [into] at sound
  have same := fun p (hp : p ∈ parents) => Table.objectsOf_of_bare (placed.same_parents group h.strung hp)
  have lists : parents.flatMap d.table.objectsOf = parents.flatMap c.table.objectsOf :=
    List.flatMap_congr same
  obtain ⟨advances, ⟨gs, count, sifted⟩, evacuated⟩ := absorbed
  have counted := advances.count
  have released := absorbs.count
  dsimp only at sifted evacuated count counted released
  rw [lists] at sifted counted
  rw [store] at sifted evacuated
  have filled := placed.filled group h.strung evacuated
    (f := fun s => { s with objects := g.kept, bytes := g.keptBytes }) fun _ => rfl
  refine ⟨sound, ?_, sifted.fate, sifted.others, ?_, ?_, fun p hp s hs sampled => ?_, ?_, ?_, ?_, ?_⟩
  · exact sifted.live?_eq h.ledger.consistent underway.sifting.ledger.consistent
      (fun i => h.exists_live group) fun i => mem_of_mem_survivors
  · exact placed.rewired group h.strung evacuated underway.strung fun _ => ⟨rfl, rfl⟩
  · dsimp only
    rw [filled, ← kept, ← underway.sifting.bytes, Array.toArray_toList]
  · obtain ⟨ghosts, leaves, retired⟩ := placed.retired group h.strung evacuated hp hs sampled
      (f := fun s => { s with objects := g.kept, bytes := g.keptBytes })
    rw [same p hp, Table.objectsOf_of_get? hs] at leaves
    exact ⟨ghosts, leaves, retired⟩
  · rw [← kept, Array.length_toList]
  · rw [counted, Array.size_empty, Nat.zero_add]
  · rw [count, Nat.zero_add, sifted.ghosts.length_eq]
  · rw [released, Nat.zero_add, account]

theorem promise_start (target : Slot) (cutoff : Float) (scores : List Float)
    (same : ∀ p ∈ parents, d.table.objectsOf p = c.table.objectsOf p)
    (segmentSize : d.table.segmentSize = c.table.segmentSize) :
    Merging.promise ⟨d, target, cutoff, scores, #[], 0, 0, 0⟩ (parents.flatMap d.table.objectsOf) =
      c.survivors parents scores cutoff := by
  rw [Merging.promise, survivors, List.flatMap_congr same, segmentSize]
  rfl

/-- No merge of a group ends otherwise than described, whatever the scores and the cutoff are. -/
theorem Sound.settles_consolidated (h : c.Sound) (group : c.table.Group parents k) (scores : List Float)
    (cutoff : Float) (m : Moment) : Settles t (c.merge parents scores cutoff m) fun q =>
      ∃ target, c.Consolidated k parents scores cutoff m target q.1 q.2 := by
  unfold merge
  refine settles_bind (h.settles_openTarget group m) fun q made => ?_
  obtain ⟨target, d⟩ := q
  obtain ⟨store, account, placed⟩ := made
  dsimp only at store account placed ⊢
  have start := h.underway group placed.toOpened store account cutoff scores
  have expects := expects_of_placed h group cutoff scores placed
  have promised := promise_start target cutoff scores
    (fun p hp => Table.objectsOf_of_bare (placed.same_parents group h.strung hp)) placed.segmentSize
  refine settles_bind ((start.settles_absorbAll_fates expects m).and (start.settles_absorbAll m))
    fun g done => ?_
  obtain ⟨absorbed, underway, absorbs⟩ := done
  have kept : g.kept.toList = c.survivors parents scores cutoff := by
    rw [← g.promise_nil, absorbed.advances.promise, List.append_nil]
    exact promised
  dsimp only at absorbed
  rw [promised] at absorbed
  exact settles_pure ⟨target, consolidated_of_absorbed h group placed store account underway absorbs
    absorbed kept⟩

theorem Sound.yields_consolidated (h : c.Sound) (group : c.table.Group parents k)
    (countable : c.Countable parents) (scores : List Float) (cutoff : Float) (m : Moment) :
    Yields (c.merge parents scores cutoff m) fun q =>
      ∃ target, c.Consolidated k parents scores cutoff m target q.1 q.2 := by
  suffices made : Yields (c.merge parents scores cutoff m) fun _ => True from
    (made.and (h.settles_consolidated (t := .any) group scores cutoff m)).mono fun _ both => both.2
  unfold merge
  refine yields_bind (h.yields_openTarget group m countable.merges countable.number) fun q made => ?_
  obtain ⟨target, d⟩ := q
  obtain ⟨store, account, placed⟩ := made
  dsimp only at store account placed ⊢
  have start := h.underway group placed.toOpened store account cutoff scores
  refine yields_bind (start.yields_absorbAll_of_few (fun i r hr home => ?_) m) fun g _ => yields_pure trivial
  dsimp only at hr
  rw [store] at hr
  exact countable.hits i (List.mem_flatMap_of_mem home ((h.listed group home i).mpr ⟨r, hr, rfl⟩)) r hr

/-- Two segments in the first bucket, one of them sampled, with `n` small objects that were not hit yet. -/
structure Stocked (c : Contents) (sizes : Slot → Nat) (n : Nat) : Prop where
  sound : c.Sound
  chain : c.table.chainOf 0 = [0, 1]
  segmentSize : c.table.segmentSize = 3
  nextId : c.table.nextId = 2
  sampled : c.table.isSampled 0 = true
  segments : ∀ p ∈ [0, 1], ∃ g, c.table.get? p = some g ∧ g.bucket = 0 ∧ g.objects.size = sizes p ∧ g.merges = 0
  account : c.account.occupied = n ∧ c.account.capacity = 10 ∧ c.account.overhead = 0
  absent : ∀ id, n ≤ id → c.store.find? id = none
  fresh : ∀ i r, c.store.live? i = some r → r.tag.freq = 0

theorem exists_stocked_zero : ∃ c : Contents, c.Stocked (fun _ => 0) 0 := by
  have one := (sound_empty 10 0 3).opened
    ((sound_empty 10 0 3).settles_openLast (t := .arithmetic) (k := 0) (by decide) 0 0)
  have sampled := one.modifySegment 0 (f := fun s => { s with sampled := true }) fun _ _ => ⟨rfl, rfl, rfl, rfl⟩
  have two := sampled.opened (sampled.settles_openLast (t := .arithmetic) (k := 0) (by decide) 0 0)
  refine ⟨_, two, by decide +kernel, rfl, rfl, rfl, fun p hp => ?_, ⟨rfl, rfl, rfl⟩, fun id _ => ?_,
    fun i r hr => ?_⟩
  · rcases List.mem_pair.mp hp with rfl | rfl
    · exact ⟨_, rfl, rfl, rfl, rfl⟩
    · exact ⟨_, rfl, rfl, rfl, rfl⟩
  · simp [Store.find?, empty, Store.empty]
  · have none : Store.live? (.empty : Store ObjectTag) i = none := Store.live?_of_none (Arena.get?_empty i)
    cases none.symm.trans hr

theorem Stocked.exists_admits {sizes : Slot → Nat} {n : Nat} (h : c.Stocked sizes n) (p : Slot) : ∃ i store,
    c.store.Admits (.ofId n 1 0) 0 (.fresh p) i store ∧ (∀ id, n + 1 ≤ id → store.find? id = none) ∧
      ∀ j r, store.live? j = some r → r.tag.freq = 0 := by
  have consistent := h.sound.ledger.consistent
  have free := h.absent n (Nat.le_refl n)
  have fit : c.store.catalogue.Accepts (.insert (.ofId n 1 0) 0 (.fresh p)) := by
    refine ⟨?_, fun ttl e => by cases e⟩
    show ((c.store.find? n).bind _) = none
    rw [free]
    rfl
  obtain ⟨⟨i, store⟩, -, ⟨-, filed⟩, admits⟩ := (consistent.catalogued.yields_insert fit).and
    (consistent.settles_insert (t := .any) 0 (ObjectTag.fresh p) free)
  dsimp only at filed admits
  refine ⟨i, store, admits, fun id hid => ?_, fun j r hr => ?_⟩
  · have other : id ≠ (Request.ofId n 1 0).id := Nat.ne_of_gt hid
    rw [(Store.Catalogued.reflects filed).find?_eq id, Catalogue.amend, Function.update_of_ne other,
      ← consistent.catalogued.reflects.find?_eq id]
    exact h.absent id (Nat.le_of_succ_le hid)
  · obtain ⟨expiry, live⟩ := admits.live?
    rw [show Store.live? _ j = _ from live j] at hr
    split at hr
    · cases hr
      rfl
    · exact h.fresh j r hr

theorem Stocked.push {sizes : Slot → Nat} {n : Nat} (h : c.Stocked sizes n) {p : Slot} (hp : p ∈ [0, 1])
    (room : sizes p < 3) (few : n < 10) :
    ∃ d : Contents, d.Stocked (Function.update sizes p (sizes p + 1)) (n + 1) := by
  obtain ⟨occupied, capacity, overhead⟩ := h.account
  obtain ⟨g, hg, home, size, merges⟩ := h.segments p hp
  obtain ⟨i, store, admits, absent, fresh⟩ := h.exists_admits p
  obtain ⟨f, hf⟩ : ∃ f : Segment → Segment, f = fun s =>
      { s with objects := s.objects.push i, bytes := g.bytes + (1 + c.account.overhead) } := ⟨_, rfl⟩
  have held : Sound ⟨c.table.modify p f, store, c.account.charged 1⟩ := by
    rw [hf]
    exact h.sound.push admits
      (show c.account.occupied + (1 + c.account.overhead) < wordBound by unfold wordBound; omega)
      (show c.account.occupied + (1 + c.account.overhead) ≤ c.account.capacity by omega) hg
      (by rw [home]; decide) (by rw [size, h.segmentSize]; exact room) rfl rfl
  have chain := (h.sound.strung.modify p (f := f) fun s _ => by rw [hf]; exact ⟨rfl, rfl⟩).chainOf_eq 0
  have get := fun j => c.table.get?_modify p j f
  refine ⟨_, held, chain.trans h.chain, h.segmentSize, h.nextId, ?_, fun q hq => ?_, ⟨?_, capacity, overhead⟩,
    absent, fresh⟩
  · have sampled := h.sampled
    rw [Table.isSampled] at sampled ⊢
    rw [get, hf]
    split
    · rename_i e
      rw [Option.any_map]
      exact sampled
    · exact sampled
  · by_cases e : p = q
    · subst e
      refine ⟨f g, ?_, ?_⟩
      · rw [get, if_pos rfl, hg]
        rfl
      · rw [hf, Function.update_self]
        exact ⟨home, by rw [Array.size_push, size], merges⟩
    · rw [get, if_neg e, Function.update_of_ne (Ne.symm e)]
      exact h.segments q hq
  · show c.account.occupied + (1 + c.account.overhead) = n + 1
    rw [occupied, overhead]

theorem Stocked.group {sizes : Slot → Nat} {n : Nat} (h : c.Stocked sizes n) : c.table.Group [0, 1] 0 :=
  ⟨by decide, by decide, by decide, fun p hp => by rw [h.chain]; exact hp⟩

theorem Stocked.countable {sizes : Slot → Nat} {n : Nat} (h : c.Stocked sizes n) : c.Countable [0, 1] := by
  obtain ⟨u, hu, -, -, merges⟩ := h.segments 0 (by decide)
  obtain ⟨v, hv, -, -, merges'⟩ := h.segments 1 (by decide)
  refine ⟨fun i _ r hr => ?_, ?_, ?_⟩
  · rw [h.fresh i r hr]
    decide
  · simp [hu, hv, merges, merges', countBound]
  · rw [h.nextId]
    decide

theorem Stocked.length_objects {sizes : Slot → Nat} {n : Nat} (h : c.Stocked sizes n) :
    ([0, 1].flatMap c.table.objectsOf).length = sizes 0 + sizes 1 := by
  obtain ⟨u, hu, -, size, -⟩ := h.segments 0 (by decide)
  obtain ⟨v, hv, -, size', -⟩ := h.segments 1 (by decide)
  simp [Table.objectsOf_of_get? hu, Table.objectsOf_of_get? hv, size, size']

theorem exists_stocked : ∃ (c : Contents) (sizes : Slot → Nat), c.Stocked sizes 4 ∧ sizes 0 = 3 ∧ sizes 1 = 1 := by
  obtain ⟨c, zero⟩ := exists_stocked_zero
  obtain ⟨c, one⟩ := zero.push (p := 0) (by decide) (by decide) (by decide)
  obtain ⟨c, two⟩ := one.push (p := 0) (by decide) (by decide) (by decide)
  obtain ⟨c, three⟩ := two.push (p := 0) (by decide) (by decide) (by decide)
  obtain ⟨c, four⟩ := three.push (p := 1) (by decide) (by decide) (by decide)
  exact ⟨c, _, four, by decide, by decide⟩

/--
The whole effect of a merge, for any distinct segments of one live bucket, any
scores and any cutoff. Only an overflow can stop it, and none does while the
hits of the objects, the merges of the segments and their numbers have room.
-/
theorem merge_consolidates (h : c.Sound) (group : c.table.Group parents k) (scores : List Float)
    (cutoff : Float) (m : Moment) :
    (Settles .arithmetic (c.merge parents scores cutoff m) fun q =>
      ∃ target, c.Consolidated k parents scores cutoff m target q.1 q.2) ∧
    (c.Countable parents → Yields (c.merge parents scores cutoff m) fun q =>
      ∃ target, c.Consolidated k parents scores cutoff m target q.1 q.2) :=
  ⟨h.settles_consolidated group scores cutoff m, fun countable =>
    h.yields_consolidated group countable scores cutoff m⟩

theorem merge_consolidates_sampled : ∃ c : Contents, c.Sound ∧ c.table.Group [0, 1] 0 ∧
    c.table.isSampled 0 = true ∧ ([0, 1].flatMap c.table.objectsOf).length = 4 ∧
      Yields (c.merge [0, 1] [1, 0, 3, 2] 2 ⟨5, 5⟩) fun q =>
        ∃ target, c.Consolidated 0 [0, 1] [1, 0, 3, 2] 2 ⟨5, 5⟩ target q.1 q.2 := by
  obtain ⟨c, sizes, stocked, first, second⟩ := exists_stocked
  refine ⟨c, stocked.sound, stocked.group, stocked.sampled, ?_,
    (merge_consolidates stocked.sound stocked.group [1, 0, 3, 2] 2 ⟨5, 5⟩).2 stocked.countable⟩
  rw [stocked.length_objects, first, second]

end Contents
end CacheReplay.GLCache
