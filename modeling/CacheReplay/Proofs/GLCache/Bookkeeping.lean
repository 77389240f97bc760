import CacheReplay.Proofs.GLCache.Appraisal
import CacheReplay.Proofs.GLCache.Compaction
import CacheReplay.Proofs.Headroom
import CacheReplay.Proofs.Regression.Rounds

set_option autoImplicit false

namespace CacheReplay

theorem addTime_of_isTime {a b : Int} (h : IsTime (a + b)) : addTime a b = .ok (a + b) := if_pos h

structure Request.Dated (req : Request) : Prop where
  time : InEra req.time
  next : ∀ next, req.next = some next → InEra next

instance (req : Request) : Decidable req.Dated :=
  decidable_of_iff (InEra req.time ∧ ∀ next ∈ req.next, InEra next)
    ⟨fun ⟨time, next⟩ => ⟨time, next⟩, fun h => ⟨h.time, h.next⟩⟩

namespace GLCache
open Regression

variable {n : Nat}

/-- A table in range, with the segments that it had. -/
structure Table.Stays (n : Nat) (a b : Table) : Prop where
  within : b.Within n
  nextId : b.nextId = a.nextId
  inUse : b.inUse = a.inUse

namespace Table.Stays
variable {a b c : Table}

theorem refl (h : a.Within n) : Stays n a a := ⟨h, rfl, rfl⟩

theorem trans (h : Stays n a b) (k : Stays n b c) : Stays n a c :=
  ⟨k.within, k.nextId.trans h.nextId, k.inUse.trans h.inUse⟩

theorem modify (h : Stays n a b) (i : Slot) {f : Segment → Segment}
    (hf : ∀ s, s.Within n b.nextId → (f s).Within n b.nextId) : Stays n a (b.modify i f) :=
  ⟨h.within.modify i fun s _ => hf s, h.nextId, h.inUse⟩

end Table.Stays

section credit
variable {μ : Type}

theorem Learner.yields_hitValue {s : Segment} {k : Nat} (h : s.Within n k) (size : Nat) {now : Int}
    (era : InEra now) : Yields (hitValue s size now) fun _ => True := by
  have next : IsTime (now - s.labelledFrom + 1) := by
    have old := h.labelledFrom
    unfold InEra eraEnd at era old
    unfold IsTime timeBound
    omega
  unfold hitValue
  rw [subTime_of_inEra era h.labelledFrom, ok_bind, addTime_of_isTime next]
  exact yields_pure trivial

theorem Learner.yields_credit (l : Learner μ) {a : Table} (h : a.Within n) (i : Slot) (size : Nat)
    {now : Int} (era : InEra now) (how : Labelling) :
    Yields (l.credit a i size now how) fun q => Table.Stays n a q.2 := by
  unfold credit
  split
  · exact yields_pure (.refl h)
  · exact yields_pure (.refl h)
  · rename_i s online hs
    dsimp only
    have skipped : Table.Stays n a (if how.skip.isSome = true then
        a.modify i fun g => { g with skipped := s.skipped + 1 } else a) := by
      split
      · exact (Table.Stays.refl h).modify i fun _ hs => hs.congr rfl
      · exact .refl h
    generalize (if how.skip.isSome = true then
      a.modify i fun g => { g with skipped := s.skipped + 1 } else a) = b at skipped ⊢
    split
    · exact yields_pure skipped
    · apply yields_bind (yields_hitValue (h i s hs) size era)
      intro value _
      have labelled := skipped.modify i (f := fun g => { g with label := s.label + value })
        fun _ hs => hs.congr rfl
      split
      · exact yields_pure labelled
      · exact yields_pure labelled

namespace Cache
variable {c d e : Cache μ}

structure Noted (n : Nat) (c d : Cache μ) : Prop where
  table : Table.Stays n c.contents.table d.contents.table
  load : d.load = c.load
  lastNotice : d.lastNotice = c.lastNotice

theorem Noted.trans (h : Noted n c d) (k : Noted n d e) : Noted n c e :=
  ⟨h.table.trans k.table, k.load.trans h.load, k.lastNotice.trans h.lastNotice⟩

variable (within : c.contents.table.Within n) (era : InEra c.account.now)

section
include within era

theorem yields_creditSegment (segment : Slot) (size : Nat) :
    Yields (c.creditSegment segment size) fun d => Noted n c d := by
  unfold creditSegment
  split
  · apply yields_bind (c.learner.yields_credit within segment size era c.labelling)
    intro q credited
    exact yields_pure ⟨credited, rfl, rfl⟩
  · exact yields_pure ⟨.refl within, rfl, rfl⟩

theorem Sound.yields_creditGhost (h : c.Sound) (id : Nat) :
    Yields (c.creditGhost id) fun d => Noted n c d := by
  unfold creditGhost
  cases c.contents.store.findGhost? id with
  | none => exact yields_pure ⟨.refl within, rfl, rfl⟩
  | some i =>
    dsimp only
    cases c.contents.store.get? i with
    | none =>
      rw [pure_bind, h.contents.ledger.consistent.delete_eq, ok_bind]
      exact yields_pure ⟨.refl within, rfl, rfl⟩
    | some r =>
      apply yields_bind ((yields_creditSegment within era r.tag.segment r.size).and
        (h.settles_creditSegment (t := .any) r.tag.segment r.size))
      intro d credited
      obtain ⟨noted, sound, -⟩ := credited
      rw [sound.contents.ledger.consistent.delete_eq, ok_bind]
      exact yields_pure ⟨noted.table, noted.load, noted.lastNotice⟩

end

end Cache
end credit

section hit

theorem heldActive_lt {s : Store ObjectTag} {l : List Slot} {i : Slot} {r : Record ObjectTag} (hi : i ∈ l)
    (hr : s.live? i = some r) (passive : r.tag.active = false) : heldActive s l < l.length := by
  refine Nat.lt_of_le_of_ne List.countP_le_length fun all => ?_
  have hit := List.countP_eq_length.mp all i hi
  rw [hr, Option.any_some, passive] at hit
  cases hit

theorem Segment.Within.yields_countHit {s : Segment} {k : Nat} (h : s.Within n k) (wasActive : Bool)
    {time : Int} (era : InEra time) (lt : n + 1 < countBound)
    (room : wasActive = false → s.active + 1 < countBound) :
    Yields (Cache.countHit s wasActive time) fun u => u.Within (n + 1) k := by
  unfold Cache.countHit
  apply yields_bind (h.windows.yields_recordHit era lt)
  intro windows counted
  cases wasActive with
  | true => exact yields_pure ⟨h.createTime, h.labelledFrom, counted, h.merges⟩
  | false =>
    rw [if_neg Bool.false_ne_true, addCount_of_lt (room rfl), ok_bind]
    exact yields_pure ⟨h.createTime, h.labelledFrom, counted, h.merges⟩

theorem LiveWithin.marked {s : Store ObjectTag} (h : LiveWithin n s) {i : Slot} {r : Record ObjectTag}
    (hr : s.live? i = some r) {req : Request} (dated : req.Dated) {now : Int} (era : InEra now)
    (sampled : Bool) : LiveWithin (n + 1) (s.modify i (Cache.marked req now sampled)) := by
  intro j u hu
  rw [s.live?_modify i (f := Cache.marked req now sampled) (fun _ _ => rfl) j] at hu
  split at hu
  · rename_i e
    subst e
    rw [hr, Option.map_some] at hu
    cases hu
    refine ⟨era, dated.time, dated.next, ?_⟩
    exact Nat.le_trans (Nat.min_le_left _ _) (Nat.succ_le_succ (h _ r hr).freq)
  · exact (h j u hu).mono (Nat.le_succ n)

namespace Cache
variable {μ : Type} {c : Cache μ} (h : c.Sound) (within : c.contents.Within n) (dated : c.moment.Dated)
  (lt : n + 1 < countBound) (size : c.config.segmentSize < countBound)
include h within dated lt size

theorem yields_hit (req : Request) {i : Slot} {r : Record ObjectTag}
    (hr : c.contents.store.live? i = some r) : Yields (c.hit req i r) fun d => Noted (n + 1) c d := by
  obtain ⟨g, hg, home, hi⟩ := h.contents.segment_of_live hr
  have filled := h.contents.filled _ g hg home
  have room : r.tag.active = false → g.active + 1 < countBound := by
    intro passive
    have few := heldActive_lt hi hr passive
    have fits := filled.fits
    have active := filled.active
    have same := h.segmentSize
    rw [Array.length_toList] at few
    omega
  unfold hit
  dsimp only
  rw [hg]
  dsimp only
  apply yields_bind ((within.table _ g hg).yields_countHit r.tag.active dated.time lt room)
  intro u counted
  have stays : Table.Stays (n + 1) c.contents.table (c.contents.table.modify r.tag.segment fun _ => u) :=
    (Table.Stays.refl (within.table.mono (Nat.le_succ n))).modify _ fun _ _ => counted
  apply (yields_creditSegment (c := { c with contents := { c.contents with
    store := c.contents.store.modify i (marked req c.account.now g.sampled)
    table := c.contents.table.modify r.tag.segment fun _ => u } }) stays.within dated.now _ _).mono
  intro d credited
  exact ⟨stays.trans credited.table, credited.load, credited.lastNotice⟩

/-- A look-up adds one to the counts of hits at the most. -/
theorem yields_check {req : Request} (times : req.Dated) : Yields (c.check req true) fun p =>
    Noted (n + 1) c p.2 ∧ LiveWithin (n + 1) p.2.contents.store := by
  have more := Nat.le_succ n
  have table := within.table.mono more
  have live := within.live.mono more
  unfold check
  cases found : c.contents.store.find? req.id with
  | none =>
    dsimp only
    rw [if_pos rfl]
    apply yields_bind ((h.yields_creditGhost table dated.now req.id).and
      (h.settles_creditGhost (t := .any) req.id))
    intro d credited
    obtain ⟨noted, settled, -⟩ := credited
    exact yields_pure ⟨noted, fun i r hr => live i r ((settled.live i).symm.trans hr)⟩
  | some i =>
    obtain ⟨r, hr, -, alive⟩ := (h.contents.ledger.consistent.find?_eq_some_iff req.id i).mp found
    have lives := (c.contents.store.live?_eq_some_iff i r).mpr ⟨hr, alive⟩
    dsimp only
    rw [if_pos rfl, hr]
    dsimp only
    apply yields_bind ((yields_hit h within dated lt size req lives).and
      (h.settles_hit (t := .any) req lives))
    intro d hit
    obtain ⟨noted, sound, account, -, store, -⟩ := hit
    apply yields_bind ((sound.yields_creditGhost noted.table.within (by rw [account]; exact dated.now) req.id).and
      (sound.settles_creditGhost (t := .any) req.id))
    intro e credited
    obtain ⟨noted', settled, -⟩ := credited
    refine yields_pure ⟨noted.trans noted', fun j u hu => ?_⟩
    have same := (settled.live j).symm.trans hu
    rw [store] at same
    exact within.live.marked lives times dated.now _ j u same

end Cache
end hit

section insert
variable {μ : Type}

theorem Contents.Sound.yields_openLast {c : Contents} (h : c.Sound) (within : c.table.Within n) {k : Nat}
    (hk : k < liveBuckets) {m : Moment} (dated : m.Dated) (word : IsWord (c.table.nextId + 1)) :
    Yields (do
      let (i, a) ← c.table.allocate k m.time m.now
      pure (i, a.append i) : Checked (Slot × Table)) fun p => p.2.Within n ∧
        p.2.nextId = c.table.nextId + 1 ∧ p.2.inUse = c.table.inUse + 1 := by
  have made : Yields (do
      let (i, a) ← c.table.allocate k m.time m.now
      pure (i, a.append i) : Checked (Slot × Table)) fun p => p.2.Within n ∧
        p.2.nextId = c.table.nextId + 1 := by
    apply yields_bind (h.strung.yields_allocate within k dated.time m.now word)
    intro p made
    have placed := made.1.append p.1
    exact yields_pure ⟨placed.1, placed.2.trans made.2⟩
  apply (made.and (h.settles_openLast (t := .any) hk m.time m.now)).mono
  intro p both
  exact ⟨both.1.1, both.1.2, both.2.inUse h.strung⟩

namespace Cache
variable {c : Cache μ} (h : c.Sound) (within : c.contents.Within n) (dated : c.moment.Dated)
  (next : IsWord (c.contents.table.nextId + 1))
include h within dated next

theorem yields_openSegment {k : Nat} (hk : k < liveBuckets) :
    Yields (c.openSegment k) fun p => p.2.Within n ∧
      p.2.nextId + p.2.inUse ≤ c.contents.table.nextId + c.contents.table.inUse + 2 := by
  unfold openSegment
  dsimp only
  cases writable? c.contents.table k with
  | some i => exact yields_pure ⟨within.table, Nat.le_add_right _ 2⟩
  | none =>
    have opened : ∀ b, Contents.Sound { c.contents with table := b } →
        Table.Stays n c.contents.table b → Yields (do
          let (i, a) ← b.allocate k c.account.clock c.account.now
          pure (i, a.append i) : Checked (Slot × Table)) fun p => p.2.Within n ∧
            p.2.nextId + p.2.inUse ≤ c.contents.table.nextId + c.contents.table.inUse + 2 := by
      intro b sound stays
      apply (sound.yields_openLast stays.within hk dated (by rw [stays.nextId]; exact next)).mono
      intro p made
      obtain ⟨table, nextId, inUse⟩ := made
      have same := stays.nextId
      have same' := stays.inUse
      dsimp only at nextId inUse
      exact ⟨table, by omega⟩
    dsimp only
    cases (c.contents.table.bucket k).chain.back with
    | none => exact opened _ h.contents (.refl within.table)
    | some i =>
      exact opened _ (h.contents.modifySegment i (f := fun s => { s with rates := c.load.rates })
        fun g _ => ⟨rfl, rfl, rfl, rfl⟩) ((Table.Stays.refl within.table).modify i fun _ hs => hs.congr rfl)

theorem yields_insert {req : Request} (times : req.Dated) (timely : req.Timely)
    (missed : ¬c.contents.store.caches req.id = true)
    (word : IsWord (c.account.occupied + (req.size + c.account.overhead)))
    (count : IsWord (c.account.objects + 1)) : Yields (c.insert req) fun p => p.2.contents.Within n ∧
      p.2.contents.table.nextId + p.2.contents.table.inUse ≤
        c.contents.table.nextId + c.contents.table.inUse + 2 ∧
      p.2.load = c.load ∧ p.2.lastNotice = c.lastNotice := by
  have free : c.contents.store.find? req.id = none := by
    rw [Store.caches, Bool.not_eq_true, Option.isSome_eq_false_iff, Option.isNone_iff_eq_none] at missed
    exact missed
  unfold insert
  apply yields_bind ((yields_openSegment h within dated next (c.bucketFor_lt req.size)).and
    (h.settles_openSegment (t := .any) (c.bucketFor_lt req.size)))
  intro p opened
  obtain ⟨segment, table⟩ := p
  obtain ⟨⟨ranged, few⟩, sound, -, -, g, hg, home, -⟩ := opened
  dsimp only at ranged few sound hg ⊢
  obtain ⟨q, e⟩ := Store.exists_insert c.account.now (ObjectTag.fresh segment) free timely
  have admits := h.contents.ledger.consistent.settles_insert (t := .any) c.account.now
    (ObjectTag.fresh segment) free
  rw [e] at admits
  obtain ⟨i, store⟩ := q
  have listed := sound.ledger.nodup segment
  rw [Table.liveObjects_of_live hg home] at listed
  have held := heldBytes_le sound.ledger.balanced listed
  rw [← (sound.filled segment g hg home).bytes] at held
  dsimp only at held
  have sum : ((table.get? segment).map (·.bytes)).getD 0 = g.bytes := by
    rw [hg]
    rfl
  rw [e, ok_bind, c.account.footprint_of_isWord (word.of_le (Nat.le_add_left ..)), ok_bind, sum,
    addWord_of_isWord (word.of_le (Nat.add_le_add_right held _)), ok_bind,
    c.account.charge_of_isWord word count, ok_bind]
  refine yields_pure ⟨⟨ranged.modify segment fun _ _ hs => hs.congr rfl, fun j u hu => ?_⟩, few, rfl, rfl⟩
  obtain ⟨expiry, live⟩ := Store.Admits.live? admits
  rw [show store.live? j = _ from live j] at hu
  split at hu
  · cases hu
    exact ⟨dated.now, times.time, times.next, Nat.zero_le n⟩
  · exact within.live j u hu

end Cache
end insert

section learner

/-- A row goes into one part of the data or is left out. -/
theorem Learner.yields_divide {s : Samples} (aligned : s.Aligned featureCount)
    (word : s.Numbered featureCount) (low high : Float32) (maxValid : Nat) {k : Nat} {labels : List Float32}
    (length : k + labels.length = s.size) (d : TrainingData) :
    Yields (divide s low high maxValid k labels d) fun e => e.width = d.width ∧
      e.train.size + e.valid.size ≤ d.train.size + d.valid.size + labels.length := by
  induction labels generalizing k d with
  | nil => exact yields_pure ⟨rfl, Nat.le_refl _⟩
  | cons y rest ih =>
    rw [List.length_cons] at length
    have later : ∀ e : TrainingData, e.width = d.width →
        e.train.size + e.valid.size ≤ d.train.size + d.valid.size + 1 →
        Yields (divide s low high maxValid (k + 1) rest e) fun e => e.width = d.width ∧
          e.train.size + e.valid.size ≤ d.train.size + d.valid.size + (y :: rest).length := by
      intro e width size
      refine (ih (by omega) e).mono fun f done => ⟨done.1.trans width, ?_⟩
      have few := done.2
      rw [List.length_cons]
      omega
    refine yields_bind (Samples.yields_row word (by decide) aligned (by omega)) fun x _ => ?_
    apply later
    · split
      · rfl
      · split <;> rfl
    · split
      · exact Nat.le_succ _
      · split
        · rw [show (d.pushValid x (normalize low high y)).valid.size = _ from d.valid.size_push _ _]
          exact Nat.le_refl _
        · rw [show (d.pushTrain x (normalize low high y)).train.size = _ from d.train.size_push _ _]
          exact Nat.le_of_eq (Nat.add_right_comm _ _ _)

theorem Learner.yields_prepare {μ : Type} (l : Learner μ) (aligned : l.samples.Aligned featureCount)
    (word : l.samples.Numbered featureCount) :
    Yields l.prepare fun d => d = l.trainingData ∧ d.Numbered := by
  have length : 0 + l.samples.labels.toList.length = l.samples.size := by
    rw [Nat.zero_add, Array.length_toList]
    rfl
  obtain ⟨d, e, width, size⟩ := yields_divide aligned word (labelRange l.samples.labels.toList).1
    (labelRange l.samples.labels.toList).2 (l.maxRows / validationStride) length (.empty featureCount)
  have bounded : ∀ k ≤ l.samples.size, IsWord (k * d.width) := by
    intro k hk
    rw [show d.width = featureCount from width]
    exact word.of_le (Nat.mul_le_mul_right _ hk)
  have total : d.train.size + d.valid.size ≤ l.samples.size := by
    refine Nat.le_trans size ?_
    rw [Array.length_toList]
    exact Nat.le_of_eq (Nat.zero_add _)
  have prepared : l.prepare = .ok d := e
  exact ⟨d, prepared, by rw [trainingData, prepared], bounded _ (by omega), bounded _ (by omega)⟩

theorem Learner.yields_nextStep {μ : Type} (l : Learner μ) {time warmup interval : Int} (now : InEra time)
    (training : InEra l.lastTraining) (due : IsTime (interval + 1)) :
    Yields (l.nextStep time warmup interval) fun step =>
      (step = .firstSnapshot → l.started = false) ∧ (step = .retrain → l.started = true) := by
  have made : Yields (l.nextStep time warmup interval) fun _ => True := by
    unfold nextStep
    split
    · exact yields_pure trivial
    · split
      · exact yields_pure trivial
      · rw [subTime_of_inEra now training, ok_bind, addTime_of_isTime due]
        exact yields_pure trivial
  exact (made.and (Cache.settles_nextStep (t := .any) l time warmup interval)).mono fun _ both => both.2.2

theorem Learner.yields_train {μ : Type} [Regressor μ] {fine : μ → Prop} (l : Learner μ)
    (fits : ∀ (m : μ) (d : TrainingData), fine m → d.Numbered → Yields (Regressor.fit m d) fun p => fine p.2)
    {c : Contents} (sound : c.Sound) (time : Int) (model : fine l.model)
    (aligned : l.samples.Aligned featureCount) (word : l.samples.Numbered featureCount) :
    Yields (l.train c time) fun q => ∃ (result : Except FitError Unit) (m : μ),
      Regressor.fit l.model l.trainingData = .ok (result, m) ∧ fine m ∧
        q = (l.trained result m time, c.unquarantined) := by
  obtain ⟨d, prepared, same, numbered⟩ := l.yields_prepare aligned word
  rw [same] at numbered
  obtain ⟨p, e, kept⟩ := fits l.model l.trainingData model numbered
  obtain ⟨result, m⟩ := p
  unfold Learner.train
  rw [prepared, ok_bind, sound.clearQuarantine_eq, ok_bind, same, e, ok_bind]
  cases result with
  | ok _ => exact yields_pure ⟨_, m, rfl, kept, rfl⟩
  | error _ => exact yields_pure ⟨_, m, rfl, kept, rfl⟩

theorem Load.yields_record (l : Load) (hit : Bool) {m : Moment} (since : l.since.Dated) (dated : m.Dated) :
    Yields (l.record hit m) fun l' => l'.since.Dated := by
  unfold Load.record
  dsimp only
  rw [subTime_of_inEra dated.time since.time, ok_bind]
  split
  · exact yields_pure since
  · rw [subTime_of_inEra dated.now since.now, ok_bind]
    split
    · exact yields_pure since
    · exact yields_pure dated

theorem Cache.stays_sampling {μ : Type} {c : Cache μ} (within : c.contents.table.Within n) (era : InEra c.account.now)
    (picked : List (Slot × Sample)) :
    Table.Stays n c.contents.table (c.sampling picked).contents.table := by
  have unsampled : ∀ (l : List Slot) (b : Table), Table.Stays n c.contents.table b →
      Table.Stays n c.contents.table (l.foldl (fun t i => t.modify i Learner.unsample) b) := by
    intro l
    induction l with
    | nil => exact fun _ h => h
    | cons i rest ih => exact fun b h => ih _ (h.modify i fun _ hs => hs.congr rfl)
  have marked : ∀ (l : List Slot) (row : Nat) (b : Table), Table.Stays n c.contents.table b →
      Table.Stays n c.contents.table (Learner.markAll c.moment.now row l b) := by
    intro l
    induction l with
    | nil => exact fun _ _ h => h
    | cons i rest ih =>
      exact fun row b h => ih _ _ (h.modify i fun _ hs => ⟨hs.createTime, era, hs.windows, hs.merges⟩)
  exact marked _ _ _ (unsampled _ _ (.refl within))

end learner

end GLCache
end CacheReplay
