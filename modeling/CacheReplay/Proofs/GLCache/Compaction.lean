import CacheReplay.Proofs.GLCache.Ranges
import Mathlib.Data.List.Fold
import Mathlib.Data.List.MinMax

set_option autoImplicit false

namespace CacheReplay.GLCache

variable {n : Nat} {m : Moment}

namespace Contents
variable {c : Contents}

section table

theorem settles_dropAll_table (sampled : Bool) (objects : List Slot) (c : Contents) :
    Settles .any (dropAll sampled objects c) fun q => q.2.2.table = c.table := by
  have drop : ∀ (c : Contents) i r ghost, Settles .any (c.dropObject i r ghost) fun d => d.table = c.table := by
    intro c i r ghost
    refine settles_bind (settles_any _) fun account _ => ?_
    exact settles_bind (settles_any _) fun gone _ => settles_pure rfl
  induction objects generalizing c with
  | nil => exact settles_pure rfl
  | cons i rest ih =>
    unfold dropAll
    cases c.store.get? i with
    | none => exact ih c
    | some r =>
      refine settles_bind (drop c i r _) fun d first => ?_
      refine settles_bind (ih d) fun q later => ?_
      exact settles_pure (later.trans first)

theorem Within.settles_retireOrFree (h : c.table.Within n) (era : InEra m.now) (i : Slot)
    (ghosts : List Slot) : Settles .any (c.retireOrFree i ghosts m) fun d =>
      d.table.Within n ∧ d.table.nextId = c.table.nextId := by
  unfold retireOrFree
  split
  · have stripped := h.modify i (f := fun s => { s with objects := ghosts.toArray, bytes := 0 })
      fun _ _ hs => hs.congr rfl
    exact settles_bind (stripped.settles_retire i era) fun _ retired => settles_pure retired
  · exact settles_bind (h.settles_free i) fun _ freed => settles_pure freed

theorem Within.settles_evictSegment (h : c.table.Within n) (era : InEra m.now) (i : Slot) :
    Settles .any (c.evictSegment i m) fun q =>
      q.2.table.Within n ∧ q.2.table.nextId = c.table.nextId := by
  unfold evictSegment
  cases hs : c.table.get? i with
  | none => exact settles_pure ⟨h, rfl⟩
  | some s =>
    have taken := (h.modify i (f := fun s => { s with objects := #[] }) fun _ _ hs => hs.congr rfl).modify i
      (f := fun s => { s with active := 0 }) fun _ _ hs => hs.congr rfl
    refine settles_bind (settles_dropAll_table s.sampled _ _) fun q same => ?_
    obtain ⟨dropped, ghosts, d⟩ := q
    dsimp only at same ⊢
    rw [← same] at taken
    refine settles_bind (Within.settles_retireOrFree taken era i ghosts) fun e done => ?_
    refine settles_pure ⟨done.1, done.2.trans ?_⟩
    rw [same]
    rfl

end table

theorem Sound.yields_evictSegment_within (h : c.Sound) (within : c.Within n) (dated : m.Dated)
    {p k : Slot} (hk : k < liveBuckets) (hp : p ∈ c.table.chainOf k) :
    Yields (c.evictSegment p m) fun q => (Evicts [p] q.1 c q.2 ∧ q.2.table.inUse < c.table.inUse) ∧
      q.2.Within n ∧ q.2.table.nextId = c.table.nextId := by
  apply ((h.yields_evictSegment hk hp m).and (Within.settles_evictSegment within.table dated.now p)).mono
  rintro q ⟨evicted, table, nextId⟩
  exact ⟨evicted, ⟨table, within.live.of_sheds evicted.1.sheds⟩, nextId⟩

end Contents

namespace Merging

section
variable {g : Merging} {lists ghosts : Slot → List Slot} {p i : Slot} {rest gs : List Slot}
  {r : Record ObjectTag}

theorem Sifting.yields_move (h : g.Sifting (Function.update lists p (i :: rest)) ghosts)
    (apart : p ≠ g.target) (hr : g.contents.store.live? i = some r) (few : r.tag.freq + 1 < countBound) :
    Yields (g.move i r) fun _ => True := by
  have ledger := h.swap apart
  obtain ⟨u, hu, home, -⟩ := ledger.exists_next
  have same : u = r := Option.some.inj (hu.symm.trans hr)
  subst same
  have out := h.not_mem_kept hr (by rw [home]; exact apart)
  have found := (g.contents.store.live?_eq_some_iff i u).mp hr
  have covers := (h.ledger.balanced.covers (Store.liveSize?_of_live found.1 found.2)).1
  have nodup := h.ledger.nodup g.target
  rw [Function.update_self] at nodup
  -- What is kept and the next object are different records, so their bytes are all occupied.
  have held := heldBytes_le h.ledger.balanced (l := g.kept.toList ++ [i]) (by
    rw [← List.concat_eq_append, List.nodup_concat]
    exact ⟨out, nodup⟩)
  rw [heldBytes_append, heldBytes_singleton hr, ← h.bytes] at held
  have word := h.ledger.balanced.word
  unfold move
  rw [addCount_of_lt few, ok_bind, Account.footprint_of_isWord (word.of_le covers), ok_bind,
    addWord_of_isWord (word.of_le held), ok_bind]
  exact yields_pure trivial

theorem Sifting.yields_sift (h : g.Sifting (Function.update lists p (i :: rest)) (Function.update ghosts p gs))
    (apart : p ≠ g.target)
    (few : ∀ r, g.contents.store.live? i = some r → r.tag.freq + 1 < countBound)
    (sampled : Bool) : Yields (g.sift sampled i) fun _ => True := by
  obtain ⟨r, hr, home, -⟩ := (h.swap apart).exists_next
  have few := few r hr
  unfold sift
  dsimp only
  rw [((g.contents.store.live?_eq_some_iff i r).mp hr).1]
  dsimp only
  split
  · cases leaves : sampled && !r.tag.seen with
    | false =>
      rw [if_neg Bool.false_ne_true]
      have start : Sifting { g with scores := g.scores.tail } (Function.update lists p (i :: rest))
          (Function.update ghosts p gs) := ⟨h.ledger, h.fits, h.bytes, h.active⟩
      apply yields_bind (start.yields_move apart hr few)
      intro g' _
      exact yields_pure trivial
    | true =>
      rw [if_pos rfl]
      obtain ⟨j, -, off, -, start⟩ := h.fork hr home g.scores.tail
      apply yields_bind (start.yields_move apart ((off i).trans hr) few)
      intro g' _
      exact yields_pure trivial
  · apply yields_bind (Contents.yields_dropObject (h.swap apart) hr _)
    intro d _
    exact yields_pure trivial

theorem Sifting.yields_siftAll {objects : List Slot}
    (h : g.Sifting (Function.update lists p objects) (Function.update ghosts p gs))
    (apart : p ≠ g.target)
    (few : ∀ i ∈ objects, ∀ r, g.contents.store.live? i = some r → r.tag.freq + 1 < countBound)
    (sampled : Bool) : Yields (siftAll sampled objects g) fun _ => True := by
  induction objects generalizing g gs with
  | nil => exact yields_pure trivial
  | cons i rest ih =>
    obtain ⟨-, -, -, out, -⟩ := (h.swap apart).exists_next
    unfold siftAll
    apply yields_bind ((h.yields_sift apart (few i List.mem_cons_self) sampled).and
      (h.settles_sift (t := .any) apart sampled))
    intro q sifted
    obtain ⟨-, follows, sifting, -, other, -⟩ := sifted
    have left : ∀ j ∈ rest, ∀ r, q.2.contents.store.live? j = some r → r.tag.freq + 1 < countBound := by
      intro j hj r hr
      have away : j ≠ i := fun e => out (e ▸ hj)
      rw [other j away] at hr
      exact few j (List.mem_cons_of_mem i hj) r hr
    apply yields_bind (ih sifting (by rw [follows.target]; exact apart) left)
    intro q _
    exact yields_pure trivial

end

/-- A parent can be emptied when the hits of its objects can be counted once more. -/
theorem Underway.yields_absorb {g : Merging} {p : Slot} {left : List Slot} (h : g.Underway (p :: left))
    (few : ∀ i ∈ g.contents.table.objectsOf p, ∀ r, g.contents.store.live? i = some r →
      r.tag.freq + 1 < countBound) (m : Moment) :
    Yields (g.absorb p m) fun g' => g'.Underway left ∧ Absorbs [p] g g' := by
  suffices made : Yields (g.absorb p m) fun _ => True from
    (made.and (h.settles_absorb (t := .any) m)).mono fun _ both => both.2
  obtain ⟨apart, s, hs, home⟩ := h.parents p List.mem_cons_self
  unfold absorb
  rw [hs]
  dsimp only [Contents.takeObjects]
  rw [Table.objectsOf_of_get? hs] at few ⊢
  generalize e : (g.contents.table.modify p fun s => { s with objects := #[] }) = b
  obtain ⟨stripped, start⟩ := h.begin hs home e.symm
  apply yields_bind ((start.yields_siftAll apart few s.sampled).and
    (start.settles_siftAll (t := .any) s.sampled apart))
  intro q sifted
  obtain ⟨slots, g'⟩ := q
  obtain ⟨-, follows, -, unsampled, -⟩ := sifted
  have table : g'.contents.table = b := follows.table
  rw [← table] at stripped
  apply yields_bind (Contents.yields_retireStripped h.strung hs home stripped unsampled)
  intro d _
  exact yields_pure trivial

theorem Underway.settles_absorb_within {g : Merging} {p : Slot} {left : List Slot}
    (h : g.Underway (p :: left)) (within : g.contents.table.Within n) (era : InEra m.now) :
    Settles .any (g.absorb p m) fun g' =>
      g'.contents.table.Within n ∧ g'.contents.table.nextId = g.contents.table.nextId := by
  obtain ⟨apart, s, hs, home⟩ := h.parents p List.mem_cons_self
  have taken := within.modify p (f := fun s => { s with objects := #[] }) fun _ _ hs => hs.congr rfl
  have nextId : (g.contents.table.modify p fun s => { s with objects := #[] }).nextId =
      g.contents.table.nextId := rfl
  unfold absorb
  rw [hs]
  dsimp only [Contents.takeObjects]
  rw [Table.objectsOf_of_get? hs]
  generalize e : (g.contents.table.modify p fun s => { s with objects := #[] }) = b at taken nextId ⊢
  obtain ⟨-, start⟩ := h.begin hs home e.symm
  apply settles_bind (start.settles_siftAll s.sampled apart)
  intro q sifted
  obtain ⟨slots, g'⟩ := q
  have table : g'.contents.table = b := sifted.1.table
  rw [← table] at taken nextId
  apply settles_bind (Contents.Within.settles_retireOrFree taken era p slots)
  intro d done
  exact settles_pure ⟨done.1, done.2.trans nextId⟩

theorem Underway.yields_absorbAll {g : Merging} {left : List Slot} (h : g.Underway left)
    (within : g.contents.Within n) (lt : n + 1 < countBound) (era : InEra m.now) :
    Yields (left.foldlM (fun g parent => g.absorb parent m) g) fun g' =>
      g'.contents.table.Within n ∧ g'.contents.table.nextId = g.contents.table.nextId := by
  induction left generalizing g with
  | nil => exact yields_pure ⟨within.table, rfl⟩
  | cons p left ih =>
    have few : ∀ i ∈ g.contents.table.objectsOf p, ∀ r, g.contents.store.live? i = some r →
        r.tag.freq + 1 < countBound := fun i _ r hr =>
      Nat.lt_of_le_of_lt (Nat.succ_le_succ (within.live i r hr).freq) lt
    rw [List.foldlM_cons]
    apply yields_bind ((h.yields_absorb few m).and (h.settles_absorb_within within.table era))
    intro g' done
    obtain ⟨⟨underway, absorbs⟩, table, nextId⟩ := done
    exact (ih underway ⟨table, within.live.of_sheds absorbs.sheds⟩).mono fun _ rest =>
      ⟨rest.1, rest.2.trans nextId⟩

end Merging

theorem Table.Strung.yields_allocate {a : Table} {seqs : Nat → List Slot} (strung : a.Strung seqs none)
    (within : a.Within n) (bucket : Nat) {time : Int} (era : InEra time) (now : Int)
    (word : IsWord (a.nextId + 1)) :
    Yields (a.allocate bucket time now) fun p => p.2.Within n ∧ p.2.nextId = a.nextId + 1 := by
  have made : Yields (a.allocate bucket time now) fun _ => True := by
    unfold allocate
    rw [addWord_of_isWord word, ok_bind]
    exact yields_pure trivial
  exact (made.and (within.settles_allocate (t := .any) strung bucket era now)).mono fun _ both => both.2

theorem isWord_of_lt {a : Nat} (h : a < countBound) : IsWord a :=
  Nat.lt_trans h (by decide)

/-- No segment comes of more merges than segments were made. -/
theorem Table.Within.merges_le {a : Table} (h : a.Within n) (run : List Slot) :
    ((run.filterMap a.get?).map (·.merges)).foldl max 0 ≤ a.nextId := by
  rw [List.foldl_eq_foldr]
  refine List.max_le_of_forall_le _ _ fun k hk => ?_
  obtain ⟨s, hs, rfl⟩ := List.mem_map.mp hk
  obtain ⟨i, -, found⟩ := List.mem_filterMap.mp hs
  exact (h i s found).merges

namespace Contents
variable {c : Contents} {run : List Slot} {k : Nat} (h : c.Sound)
include h

/-- The target of a merge can be placed when it has a number and its merges can be counted. -/
theorem Sound.yields_openTarget (group : c.table.Group run k) (m : Moment)
    (merges : ((run.filterMap c.table.get?).map (·.merges)).foldl max 0 + 1 < countBound)
    (word : IsWord (c.table.nextId + 1)) : Yields (c.openTarget run m) fun q =>
      q.2.store = c.store ∧ q.2.account = c.account ∧ Table.Placed k run m q.1 c.table q.2.table := by
  suffices made : Yields (c.openTarget run m) fun _ => True from
    (made.and (h.settles_openTarget (t := .any) group m)).mono fun _ both => both.2
  have common := commonBucket_eq h.strung group.live group.mem group.ne
  unfold openTarget Table.allocate
  rw [common, ok_bind, addWord_of_isWord word]
  dsimp only
  rw [ok_bind, addCount_of_lt merges]
  exact yields_pure trivial

variable (within : c.Within n) (dated : m.Dated) (few : c.table.nextId + 1 < countBound)
include within dated few

theorem Sound.yields_openTarget_within (group : c.table.Group run k) : Yields (c.openTarget run m) fun q =>
    (q.2.store = c.store ∧ q.2.account = c.account ∧ Table.Placed k run m q.1 c.table q.2.table) ∧
      q.2.table.Within n ∧ q.2.table.nextId = c.table.nextId + 1 := by
  have merges := within.table.merges_le run
  have made := h.yields_openTarget group m (Nat.lt_of_le_of_lt (Nat.succ_le_succ merges) few)
    (isWord_of_lt few)
  refine made.and (settles_bind (settles_any _) fun b _ => ?_)
  refine settles_bind (within.table.settles_allocate h.strung b dated.time m.now) fun p made => ?_
  obtain ⟨i, a⟩ := p
  obtain ⟨table, nextId⟩ := made
  dsimp only at table nextId ⊢
  refine settles_bind (settles_addCount _ _) fun sum more => ?_
  subst more
  have merged := table.modify i (f := fun s => { s with
    rates := meanRates (run.filterMap c.table.get?) run.length
    merges := ((run.filterMap c.table.get?).map (·.merges)).foldl max 0 + 1 })
    fun s _ hs => ⟨hs.createTime, hs.labelledFrom, hs.windows, by
      rw [nextId]
      exact Nat.succ_le_succ merges⟩
  cases run with
  | nil => exact absurd rfl group.ne
  | cons anchor rest =>
    have placed := merged.insertBefore b anchor i
    exact settles_pure ⟨placed.1, placed.2.trans nextId⟩

theorem Sound.yields_merge (legal : (Choice.merge run).Legal c.table.chainOf k) (two : 1 < k)
    (lt : n + 1 < countBound) (scores : List Float) (cutoff : Float) :
    Yields (c.merge run scores cutoff m) fun q =>
      (Evicts run q.1.dropped c q.2 ∧ q.2.table.inUse < c.table.inUse) ∧
        q.2.Within n ∧ q.2.table.nextId = c.table.nextId + 1 := by
  suffices made : Yields (c.merge run scores cutoff m) fun q =>
      q.2.table.Within n ∧ q.2.table.nextId = c.table.nextId + 1 by
    apply (made.and (h.settles_merge (t := .any) legal two scores cutoff m)).mono
    rintro q ⟨⟨table, nextId⟩, evicted⟩
    exact ⟨evicted, ⟨table, within.live.of_sheds evicted.1.sheds⟩, nextId⟩
  obtain ⟨b, group⟩ := Table.exists_group_of_legal legal (Nat.lt_of_succ_lt two)
  unfold merge
  apply yields_bind (h.yields_openTarget_within within dated few group)
  intro q made
  obtain ⟨target, d⟩ := q
  obtain ⟨⟨store, account, placed⟩, table, nextId⟩ := made
  dsimp only at store account placed table nextId ⊢
  have start := h.underway group placed.toOpened store account cutoff scores
  apply yields_bind (start.yields_absorbAll ⟨table, by rw [store]; exact within.live⟩ lt dated.now)
  intro g done
  obtain ⟨table', nextId'⟩ := done
  exact yields_pure ⟨table'.modify target fun _ _ hs => hs.congr rfl, nextId'.trans nextId⟩

end Contents
end CacheReplay.GLCache
