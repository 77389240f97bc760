import CacheReplay.Proofs.GLCache.Ownership

set_option autoImplicit false

namespace CacheReplay.GLCache

/-- The ghosts of one segment among some slots have been deleted. -/
structure Swept (k : Slot) (l : List Slot) (s s' : Store ObjectTag) : Prop where
  consistent : s'.Consistent
  old : ∀ j r, s'.get? j = some r → s.get? j = some r
  kept : ∀ j r, s.get? j = some r → r.ghost = false → s'.get? j = some r
  gone : ∀ j r, s'.get? j = some r → r.ghost = true → r.tag.segment = k → j ∉ l

theorem yields_sweep {s : Store ObjectTag} (h : s.Consistent) (k : Slot) (l : List Slot) :
    Yields (l.foldlM (fun (s : Store ObjectTag) j =>
      if (s.get? j).any fun r => r.ghost && r.tag.segment == k then Prod.snd <$> s.delete j
      else pure s) s) (Swept k l s) := by
  induction l generalizing s with
  | nil => exact yields_pure ⟨h, fun _ _ hr => hr, fun _ _ hr _ => hr, fun _ _ _ _ _ => List.not_mem_nil⟩
  | cons i rest ih =>
    rw [List.foldlM_cons]
    split
    · rename_i owned
      obtain ⟨u, hu, own⟩ := Option.any_eq_true .. |>.mp owned
      have ghost : u.ghost = true := by
        simp only [Bool.and_eq_true] at own
        exact own.1
      obtain ⟨consistent, get⟩ := h.without hu
      rw [h.delete_eq]
      refine (ih consistent).mono fun s' swept => ?_
      refine ⟨swept.consistent, fun j r hr => ?_, fun j r hr live => ?_, fun j r hr ghostly at_k => ?_⟩
      · have mid := swept.old j r hr
        rw [get] at mid
        split at mid
        · cases mid
        · exact mid
      · refine swept.kept j r ?_ live
        rw [get, if_neg]
        · exact hr
        · intro e
          rw [← e, hu] at hr
          cases hr
          rw [ghost] at live
          cases live
      · have mid := swept.old j r hr
        rw [get] at mid
        split at mid
        · cases mid
        · rename_i apart
          rw [List.mem_cons, not_or]
          exact ⟨Ne.symm apart, swept.gone j r hr ghostly at_k⟩
    · rename_i other
      refine (ih h).mono fun s' swept => ?_
      refine ⟨swept.consistent, swept.old, swept.kept, fun j r hr ghostly at_k => ?_⟩
      rw [List.mem_cons, not_or]
      refine ⟨fun e => other ?_, swept.gone j r hr ghostly at_k⟩
      rw [← e, swept.old j r hr]
      simp [ghostly, at_k]

theorem Table.Strung.clear {a b : Table} {seqs : Nat → List Slot} (h : a.Strung seqs none)
    (sound : b.segments.Sound)
    (segments : ∀ i, b.get? i = if i ∈ seqs quarantine then none else a.get? i)
    (buckets : b.buckets = a.buckets.modify quarantine fun _ => .empty)
    (inUse : b.inUse = a.inUse) (training : b.training = 0) :
    b.Strung (Function.update seqs quarantine []) none := by
  have size : quarantine < a.buckets.size := by
    rw [h.size_buckets]
    exact Nat.lt_succ_self _
  have bucket : ∀ m, b.bucket m = if m = quarantine then .empty else a.bucket m := by
    intro m
    rw [← Table.bucket_modifyBucket size fun _ => .empty, Table.bucket, Table.bucket, buckets]
    rfl
  have own : ∀ m, m ≠ quarantine → ∀ i ∈ seqs m, b.get? i = a.get? i := by
    intro m hm i hi
    rw [segments, if_neg]
    exact fun away => hm (h.family.disjoint m quarantine i hi away)
  have chains : b.chains = Function.update a.chains quarantine .empty := by
    funext m
    rw [Table.chains, bucket, Function.update_apply]
    split <;> rfl
  refine ⟨sound, by simp [buckets, h.size_buckets], ?_, fun m i _ => ?_, fun m i hi => ?_, ?_⟩
  · rw [chains]
    refine h.family.giveUp quarantine fun m hm i hi => ?_
    exact congrArg (Option.map Linked.links) (own m hm i hi)
  · rw [segments, Function.update_apply]
    by_cases away : i ∈ seqs quarantine
    · have others := h.family.own away m
      by_cases e : m = quarantine
      · simp [e, away]
      · simp [e, away, others e]
    · rw [if_neg away, ← h.mem_iff m i]
      by_cases e : m = quarantine
      · simp [e, away]
      · rw [if_neg e]
  · rw [bucket] at hi
    split at hi
    · cases hi
    · rename_i e
      rw [Function.update_of_ne e]
      exact h.cursor m i hi
  · rw [inUse, training]
    exact h.counted.update_quarantine []

namespace Contents

/-- Some segments have been freed together with the ghosts that name and that they list. -/
structure Freed (l : List Slot) (c d : Contents) : Prop where
  consistent : d.store.Consistent
  old : ∀ j r, d.store.get? j = some r → c.store.get? j = some r
  kept : ∀ j r, c.store.get? j = some r → r.ghost = false → d.store.get? j = some r
  gone : ∀ j r, d.store.get? j = some r → r.ghost = true → r.tag.segment ∈ l →
    j ∉ c.table.objectsOf r.tag.segment
  account : d.account = c.account
  sound : d.table.segments.Sound
  segments : ∀ k, d.table.get? k = if k ∈ l then none else c.table.get? k
  buckets : d.table.buckets = c.table.buckets
  inUse : d.table.inUse = c.table.inUse
  ranking : d.table.ranking = c.table.ranking
  segmentSize : d.table.segmentSize = c.table.segmentSize
  nextId : d.table.nextId = c.table.nextId

theorem yields_freeAll {c : Contents} (consistent : c.store.Consistent) (sound : c.table.segments.Sound)
    {l : List Slot} (nodup : l.Nodup) : Yields (l.foldlM freeQuarantined c) (Freed l c) := by
  induction l generalizing c with
  | nil =>
    refine yields_pure ⟨consistent, fun _ _ hr => hr, fun _ _ hr _ => hr, fun _ _ _ _ hk => ?_, rfl, sound,
      fun _ => rfl, rfl, rfl, rfl, rfl, rfl⟩
    cases hk
  | cons i rest ih =>
    rw [List.nodup_cons] at nodup
    have get : ∀ k, Table.get? { c.table with segments := (c.table.segments.remove i).2 } k =
        if i = k then none else c.table.get? k := c.table.segments.get?_remove i
    obtain ⟨store, e, swept⟩ := yields_sweep consistent i (c.table.objectsOf i)
    rw [List.foldlM_cons, freeQuarantined, e]
    refine (ih swept.consistent (sound.remove i) nodup.2).mono fun d freed => ?_
    refine ⟨freed.consistent, fun j r hr => swept.old j r (freed.old j r hr),
      fun j r hr live => freed.kept j r (swept.kept j r hr live) live, fun j r hr ghost hk => ?_,
      freed.account, freed.sound, fun k => ?_, freed.buckets,
      freed.inUse, freed.ranking, freed.segmentSize, freed.nextId⟩
    · by_cases e : r.tag.segment = i
      · rw [e]
        exact swept.gone j r (freed.old j r hr) ghost e
      · have others := freed.gone j r hr ghost ((List.mem_cons.mp hk).resolve_left e)
        rw [Table.objectsOf, get, if_neg (Ne.symm e)] at others
        exact others
    · rw [freed.segments, get]
      by_cases e : i = k
      · simp [e]
      · by_cases hk : k ∈ rest <;> simp [e, Ne.symm e, hk]

namespace Freed
variable {c d : Contents} {l : List Slot}

theorem live?_eq (f : Freed l c d) (i : Slot) : d.store.live? i = c.store.live? i := by
  refine Option.ext fun r => ?_
  rw [Store.live?_eq_some_iff, Store.live?_eq_some_iff]
  constructor
  · intro found
    exact ⟨f.old i r found.1, found.2⟩
  · intro found
    exact ⟨f.kept i r found.1 found.2, found.2⟩

theorem get?_eq_some_iff (f : Freed l c d) (k : Slot) (g : Segment) :
    d.table.get? k = some g ↔ k ∉ l ∧ c.table.get? k = some g := by
  rw [f.segments]
  split
  · rename_i freed
    simp [freed]
  · rename_i kept
    rw [and_iff_right kept]

theorem liveObjects_eq (f : Freed l c d)
    (retired : ∀ k ∈ l, ∃ g, c.table.get? k = some g ∧ g.bucket = quarantine) :
    d.table.liveObjects = c.table.liveObjects := by
  funext k
  have segment := f.segments k
  by_cases hk : k ∈ l
  · obtain ⟨g, hg, home⟩ := retired k hk
    rw [if_pos hk] at segment
    rw [Table.liveObjects_of_none segment, Table.liveObjects_of_retired hg home]
  · rw [if_neg hk] at segment
    exact (Table.listed_congr (congrArg _ segment)).1

/-- No ghost is left, since the ledger lists each of them at the segment that it names. -/
theorem ghostless (f : Freed l c d) (owned : ∀ i r, c.store.get? i = some r → r.ghost = true →
      r.tag.segment ∈ l ∧ i ∈ c.table.objectsOf r.tag.segment) :
    ∀ i r, d.store.get? i = some r → r.ghost = false := by
  intro i r hr
  by_contra ghost
  rw [Bool.not_eq_false] at ghost
  obtain ⟨freed, listed⟩ := owned i r (f.old i r hr) ghost
  exact f.gone i r hr ghost freed listed

end Freed

structure Cleared (c d : Contents) : Prop where
  sound : d.Sound
  ghosts : ∀ i r, d.store.get? i = some r → r.ghost = false
  ghostCount : d.store.ghostCount = .ok 0
  segments : ∀ k g, d.table.get? k = some g → g.bucket ≠ quarantine
  training : d.table.training = 0
  live : ∀ i, d.store.live? i = c.store.live? i
  account : d.account = c.account
  segmentSize : d.table.segmentSize = c.table.segmentSize
  old : ∀ k g, d.table.get? k = some g → c.table.get? k = some g
  inUse : d.table.inUse = c.table.inUse
  nextId : d.table.nextId = c.table.nextId

theorem Sound.yields_clearQuarantine {c : Contents} (h : c.Sound) :
    Yields c.clearQuarantine (Cleared c) := by
  refine yields_bind (yields_freeAll h.ledger.consistent h.strung.sound
    (h.strung.family.represents quarantine).nodup) fun d freed => ?_
  have retired := fun k => h.strung.mem_iff quarantine k
  have strung : Table.Strung { d.table.modifyBucket quarantine fun _ => .empty with training := 0 }
      (Function.update c.table.chainOf quarantine []) none :=
    h.strung.clear freed.sound freed.segments (congrArg (·.modify quarantine fun _ => .empty) freed.buckets)
      freed.inUse rfl
  have ghostless := freed.ghostless fun i r hr ghost => by
    obtain ⟨g, hg, home, hi⟩ := Table.exists_of_mem_ghostSlots (h.ledger.ghost i r hr ghost)
    refine ⟨(retired r.tag.segment).mpr ⟨g, hg, home⟩, ?_⟩
    rw [Table.objectsOf_of_get? hg]
    exact hi
  have lists := freed.liveObjects_eq fun k hk => (retired k).mp hk
  have live := freed.live?_eq
  have left : ∀ k g, d.table.get? k = some g ↔
      c.table.get? k = some g ∧ g.bucket ≠ quarantine := by
    intro k g
    rw [freed.get?_eq_some_iff, retired, and_comm]
    refine and_congr_right fun hg => ?_
    simp [hg]
  refine yields_pure ⟨⟨strung.listed, ?_, ?_, fun k g hg home => ?_⟩, ghostless, ?_,
    fun k g hg => ((left k g).mp hg).2, rfl, live, freed.account, freed.segmentSize,
    fun k g hg => ((left k g).mp hg).1, freed.inUse, freed.nextId⟩
  · refine h.ranked.of_fewer (fun p i hi => ?_) fun i u hu _ => ⟨u, ((left i u).mp hu).1, rfl, rfl, rfl⟩
    rw [show (d.table.modifyBucket quarantine fun _ => Bucket.empty).ranking = c.table.ranking from
      freed.ranking] at hi
    obtain ⟨g, hg, rank⟩ := h.ranked.slots p i hi
    exact ⟨g, (left i g).mpr ⟨hg, h.ranked.live i g hg (by rw [rank]; rfl)⟩, rank⟩
  · show Ledger d.store d.account d.table.liveObjects _
    rw [freed.account, lists]
    refine h.ledger.keep freed.consistent live fun i r hr ghost => ?_
    rw [ghostless i r hr] at ghost
    cases ghost
  · have same : (d.table.modifyBucket quarantine fun _ => Bucket.empty).segmentSize =
        c.table.segmentSize := freed.segmentSize
    dsimp only
    rw [freed.account, same]
    exact (h.filled k g ((left k g).mp hg).1 home).congr fun i _ => live i
  · refine freed.consistent.ghostCount_eq.trans (congrArg _ ((Arena.total_eq_zero_iff _ _).mpr ?_))
    intro i r hr
    rw [Record.unit, ghostless i r hr]
    rfl

/-- What the emptying of the quarantine leaves. -/
def unquarantined (c : Contents) : Contents :=
  match c.clearQuarantine with
  | .ok d => d
  | .error _ => c

theorem unquarantined_of {c : Contents} {good : Contents → Prop} (still : good c)
    (cleared : Settles .any c.clearQuarantine good) : good c.unquarantined := by
  unfold unquarantined
  cases e : c.clearQuarantine with
  | error f => exact still
  | ok d => rwa [e] at cleared

theorem Sound.clearQuarantine_eq {c : Contents} (h : c.Sound) :
    c.clearQuarantine = .ok c.unquarantined := by
  obtain ⟨d, e, -⟩ := h.yields_clearQuarantine
  rw [unquarantined, e]

theorem Sound.unquarantined {c : Contents} (h : c.Sound) : Cleared c c.unquarantined := by
  obtain ⟨d, e, cleared⟩ := h.yields_clearQuarantine
  rwa [Contents.unquarantined, e]

end Contents
end CacheReplay.GLCache
