import CacheReplay.GLCache.Audit
import CacheReplay.Proofs.GLCache.Knobs
import CacheReplay.Proofs.GLCache.Listing
import CacheReplay.Proofs.GLCache.Quarantine
import CacheReplay.Proofs.Run

set_option autoImplicit false

/-!
# The group-level cache is dependable

Every operation keeps the contents sound, and each has one lemma that says all
that it does to records, counters and training data. A fault of a step is an
overflow or comes from fitting the model, whatever the model is.
-/
namespace CacheReplay

def Tolerance.ofModel (μ : Type) [Regression.Regressor μ] : Tolerance where
  allows f := f = .overflow ∨
    ∃ (m : μ) (d : Regression.TrainingData), Regression.Regressor.fit m d = .error f
  overflow := .inl rfl

theorem Tolerance.allows_of_fit {μ : Type} [Regression.Regressor μ] (m : μ) (d : Regression.TrainingData)
    (f : Fault) (e : Regression.Regressor.fit m d = .error f) : (ofModel μ).allows f := .inr ⟨m, d, e⟩

/-- Each row has its label and `width` features. -/
def Regression.Samples.Aligned (s : Samples) (width : Nat) : Prop := s.features.size = s.size * width

namespace GLCache
open Regression

structure Learner.Relabelled {μ : Type} (rows : Nat → Prop) (l l' : Learner μ) : Prop where
  same : ∃ labels, l' = { l with samples := { l.samples with labels } }
  size : l'.samples.size = l.samples.size
  others : ∀ n, ¬rows n → l'.samples.labels[n]? = l.samples.labels[n]?

namespace Learner.Relabelled
variable {μ : Type} {rows rows' : Nat → Prop} {l l' l'' : Learner μ}

theorem refl (rows : Nat → Prop) (l : Learner μ) : l.Relabelled rows l :=
  ⟨⟨l.samples.labels, rfl⟩, rfl, fun _ _ => rfl⟩

theorem trans (h : l.Relabelled rows l') (k : l'.Relabelled rows l'') : l.Relabelled rows l'' where
  same := by
    obtain ⟨labels, rfl⟩ := h.same
    obtain ⟨labels', rfl⟩ := k.same
    exact ⟨labels', rfl⟩
  size := k.size.trans h.size
  others n hn := (k.others n hn).trans (h.others n hn)

theorem mono (h : l.Relabelled rows l') (sub : ∀ n, rows n → rows' n) : l.Relabelled rows' l' :=
  { h with others := fun n hn => h.others n fun hit => hn (sub n hit) }

theorem aligned {width : Nat} (h : l.Relabelled rows l') (aligned : l.samples.Aligned width) :
    l'.samples.Aligned width := by
  obtain ⟨labels, rfl⟩ := h.same
  rw [Samples.Aligned, h.size]
  exact aligned

end Learner.Relabelled

/-- Hits that leave the label as it is: all of them if it comes from future accesses, else the first few. -/
def Labelling.passes (how : Labelling) (s : Segment) : Prop :=
  how.source = .oracle ∨ ∃ n, how.skip = some n ∧ s.skipped < n

/-- What a hit on an object of some size adds to the label of a segment at a time. -/
def Segment.worth (s : Segment) (size : Nat) (now : Int) : Float :=
  1e6 / Floating.ofInt (max (now - s.labelledFrom + 1) 1) / Floating.ofNat (max size 1)

/-- A hit adds its worth to the label of the segment, and the label of the row is then the sum. -/
structure Learner.Graded {μ : Type} (how : Labelling) (size : Nat) (now : Int) (s u : Segment) (n : Nat)
    (l l' : Learner μ) : Prop where
  passed : how.passes s → u.label = s.label ∧ l'.samples.labels[n]? = l.samples.labels[n]?
  added : ¬how.passes s → u.label = s.label + s.worth size now ∧
    l'.samples.labels[n]? = l.samples.labels[n]?.map fun _ => u.label.toFloat32

theorem Learner.Graded.of_same {μ : Type} {how : Labelling} {size n : Nat} {now : Int} {s s' u : Segment}
    {l l' : Learner μ} (h : Graded how size now s' u n l l') (label : s'.label = s.label)
    (skipped : s'.skipped = s.skipped) (since : s'.labelledFrom = s.labelledFrom) :
    Graded how size now s u n l l' := by
  have passes : how.passes s' ↔ how.passes s := by rw [Labelling.passes, skipped, Labelling.passes]
  have worth : s'.worth size now = s.worth size now := by rw [Segment.worth, since, Segment.worth]
  constructor
  · intro passed
    rw [← label]
    exact h.passed (passes.mpr passed)
  · intro counted
    rw [← label, ← worth]
    exact h.added (mt passes.mp counted)

theorem Learner.settles_hitValue {t : Tolerance} (s : Segment) (size : Nat) (now : Int) :
    Settles t (hitValue s size now) fun value => value = s.worth size now := by
  refine settles_bind (settles_subTime _ _) fun elapsed he => ?_
  refine settles_bind (settles_addTime _ _) fun age ha => settles_pure ?_
  rw [ha, he, Segment.worth]

namespace Cache
variable {μ : Type} {t : Tolerance}

structure Sound (c : Cache μ) : Prop where
  contents : c.contents.Sound
  turn : c.turn < liveBuckets
  accepted : c.config.validate = .ok ()
  segmentSize : c.contents.table.segmentSize = c.config.segmentSize
  aligned : c.learner.samples.Aligned featureCount

theorem sound_ofConfig (capacity overhead : Nat) {config : Config} (model : μ)
    (accepted : config.validate = .ok ()) : (ofConfig capacity overhead config model).Sound :=
  ⟨Contents.sound_empty capacity overhead config.segmentSize, Nat.zero_lt_succ _, accepted, rfl,
    (Nat.zero_mul _).symm⟩

theorem Sound.begun {c : Cache μ} (h : c.Sound) (req : Request) :
    Sound { c with contents := { c.contents with account := c.account.begun req } } :=
  ⟨⟨h.contents.strung, h.contents.ranked,
      { h.contents.ledger with
        balanced := ⟨h.contents.ledger.balanced.objects, h.contents.ledger.balanced.occupied,
          h.contents.ledger.balanced.word⟩ },
      h.contents.filled⟩,
    h.turn, h.accepted, h.segmentSize, h.aligned⟩

/-- The parts of a cache that bookkeeping leaves alone. -/
structure Settled (c d : Cache μ) : Prop where
  sound : d.Sound
  account : d.account = c.account
  live : ∀ i, d.contents.store.live? i = c.contents.store.live? i
  tally : d.tally = c.tally
  config : d.config = c.config

structure Relabelled (rows : Nat → Prop) (c d : Cache μ) : Prop where
  config : d.config = c.config
  sample? : d.contents.table.sample? = c.contents.table.sample?
  learner : c.learner.Relabelled rows d.learner

namespace Relabelled
variable {rows rows' : Nat → Prop} {c d e : Cache μ}

theorem refl (rows : Nat → Prop) (c : Cache μ) : c.Relabelled rows c := ⟨rfl, rfl, .refl rows _⟩

theorem trans (h : c.Relabelled rows d) (k : d.Relabelled rows e) : c.Relabelled rows e :=
  ⟨k.config.trans h.config, k.sample?.trans h.sample?, h.learner.trans k.learner⟩

theorem mono (h : c.Relabelled rows d) (sub : ∀ n, rows n → rows' n) : c.Relabelled rows' d :=
  ⟨h.config, h.sample?, h.learner.mono sub⟩

theorem of_sample? (config : d.config = c.config) (learner : d.learner = c.learner)
    (sample? : d.contents.table.sample? = c.contents.table.sample?) : c.Relabelled rows d :=
  ⟨config, sample?, by rw [learner]; exact .refl rows _⟩

end Relabelled

/-- A hit on an object of some size is credited to a segment, in the label of its own row. -/
def Credited (segment : Slot) (size : Nat) (c d : Cache μ) : Prop :=
  ∀ s n, c.contents.table.get? segment = some s → c.contents.table.rowOf? segment = some n →
    ∃ u, d.contents.table.get? segment = some u ∧
      Learner.Graded c.labelling size c.account.now s u n c.learner d.learner

/-- The rows of the segments that records of an object name. -/
def rowsOf (c : Cache μ) (id n : Nat) : Prop :=
  ∃ i r, c.contents.store.get? i = some r ∧ r.id = id ∧ c.contents.table.rowOf? r.tag.segment = some n

section credit

theorem sound_skip {c : Contents} (h : c.Sound) {i : Slot} {s : Segment}
    (hs : c.table.get? i = some s) (counts : Bool) (b : Table)
    (hb : b = if counts = true then c.table.modify i fun g => { g with skipped := s.skipped + 1 }
      else c.table) :
    Contents.Sound { c with table := b } ∧ b.segmentSize = c.table.segmentSize ∧
      b.sample? = c.table.sample? ∧ ∃ u, b.get? i = some u ∧ u.label = s.label := by
  rw [hb]
  split
  · refine ⟨h.modifySegment i fun g _ => ⟨rfl, rfl, rfl, rfl⟩, rfl,
      c.table.sample?_modify i fun _ _ => rfl, { s with skipped := s.skipped + 1 }, ?_, rfl⟩
    rw [Table.get?_modify, if_pos rfl, hs]
    rfl
  · exact ⟨h, rfl, rfl, s, hs, rfl⟩

theorem settles_credit {c : Contents} (h : c.Sound) (l : Learner μ) (i : Slot) (size : Nat) (now : Int)
    (how : Labelling) :
    Settles t (l.credit c.table i size now how) fun q => Contents.Sound { c with table := q.2 } ∧
      q.2.segmentSize = c.table.segmentSize ∧ q.2.sample? = c.table.sample? ∧
      l.Relabelled (fun n => ∃ g, c.table.get? i = some g ∧ g.row = some n) q.1 ∧
      ∀ g n, c.table.get? i = some g → g.row = some n →
        ∃ u, q.2.get? i = some u ∧ Learner.Graded how size now g u n l q.1 := by
  unfold Learner.credit
  split
  · rename_i oracle
    have passes : ∀ g, how.passes g := fun g => .inl oracle
    exact settles_pure ⟨h, rfl, rfl, .refl _ _, fun g _ hg _ =>
      ⟨g, hg, fun _ => ⟨rfl, rfl⟩, fun counted => absurd (passes g) counted⟩⟩
  · rename_i none
    refine settles_pure ⟨h, rfl, rfl, .refl _ _, fun g _ hg _ => ?_⟩
    rw [none] at hg
    cases hg
  · rename_i s online hs
    dsimp only
    have skipped := sound_skip h hs how.skip.isSome
    generalize (if how.skip.isSome = true then
      c.table.modify i fun g => { g with skipped := s.skipped + 1 } else c.table) = b at skipped ⊢
    obtain ⟨sound, segmentSize, sample?, w, hw, label⟩ := skipped _ rfl
    have passes_iff : how.passes s ↔ (how.skip.any fun n => decide (s.skipped < n)) = true := by
      simp [Labelling.passes, online, Option.any_eq_true]
    split
    · rename_i passed
      refine settles_pure ⟨sound, segmentSize, sample?, .refl _ _, fun g n hg _ => ⟨w, hw, ?_⟩⟩
      cases hs.symm.trans hg
      exact ⟨fun _ => ⟨label, rfl⟩, fun counted => absurd (passes_iff.mpr passed) counted⟩
    · rename_i counted
      refine settles_bind (Learner.settles_hitValue s size now) fun value worth => ?_
      subst worth
      · have second : Contents.Sound { c with
            table := b.modify i fun g => { g with label := s.label + s.worth size now } } :=
          sound.modifySegment i fun g _ => ⟨rfl, rfl, rfl, rfl⟩
        have sampled := (b.sample?_modify i (f := fun g => { g with label := s.label + s.worth size now })
          fun _ _ => rfl).trans sample?
        split
        · rename_i unassigned
          refine settles_pure ⟨second, segmentSize, sampled, .refl _ _, fun g n hg row => ?_⟩
          rw [hs] at hg
          cases hg
          rw [unassigned] at row
          cases row
        · rename_i n assigned
          have labelled : (b.modify i fun g => { g with label := s.label + s.worth size now }).get? i =
              some { w with label := s.label + s.worth size now } := by
            rw [Table.get?_modify, if_pos rfl, hw]
            rfl
          refine settles_pure ⟨second, segmentSize, sampled,
            ⟨⟨_, rfl⟩, Array.size_modify, fun m hm => ?_⟩, fun g m hg row => ⟨_, labelled, ?_⟩⟩
          · dsimp only
            rw [Array.getElem?_modify, if_neg]
            rintro rfl
            exact hm ⟨s, hs, assigned⟩
          · cases hs.symm.trans hg
            cases assigned.symm.trans row
            refine ⟨fun passes => absurd (passes_iff.mp passes) counted, fun _ => ⟨rfl, ?_⟩⟩
            exact Array.getElem?_modify.trans (if_pos rfl)

theorem Sound.settles_creditSegment {c : Cache μ} (h : c.Sound) (segment : Slot) (size : Nat) :
    Settles t (c.creditSegment segment size) fun d => d.Sound ∧ d.account = c.account ∧
      d.contents.store = c.contents.store ∧ d.tally = c.tally ∧
      c.Relabelled (fun n => c.contents.table.rowOf? segment = some n) d ∧
      Credited segment size c d := by
  unfold creditSegment
  split
  · rename_i any
    refine settles_bind (settles_credit h.contents c.learner segment size _ _) fun q credited => ?_
    obtain ⟨learner, table⟩ := q
    obtain ⟨sound, size, sample?, relabelled, graded⟩ := credited
    have row_eq : ∀ g, c.contents.table.get? segment = some g → c.contents.table.rowOf? segment = g.row := by
      intro g hg
      rw [hg, Option.any_some] at any
      rw [Table.rowOf?, Table.sample?_of_get? hg, Segment.sample?, if_pos any]
      rfl
    refine settles_pure ⟨⟨sound, h.turn, h.accepted, size.trans h.segmentSize,
      relabelled.aligned h.aligned⟩, rfl, rfl, rfl, ⟨rfl, sample?, relabelled.mono ?_⟩,
      fun g n hg row => graded g n hg ((row_eq g hg).symm.trans row)⟩
    rintro n ⟨g, hg, row⟩
    exact (row_eq g hg).trans row
  · rename_i unsampled
    refine settles_pure ⟨h, rfl, rfl, rfl, .refl _ c, fun g n hg row => ?_⟩
    rw [hg, Option.any_some] at unsampled
    rw [Table.rowOf?, Table.sample?_of_get? hg, Segment.sample?, if_neg unsampled] at row
    cases row

theorem Sound.settles_creditGhost {c : Cache μ} (h : c.Sound) (id : Nat) :
    Settles t (c.creditGhost id) fun d => Settled c d ∧ c.Relabelled (c.rowsOf id) d := by
  unfold creditGhost
  cases found : c.contents.store.findGhost? id with
  | none => exact settles_pure ⟨⟨h, rfl, fun _ => rfl, rfl, rfl⟩, .refl _ c⟩
  | some i =>
    obtain ⟨r, hr, hid, ghost⟩ := (h.contents.ledger.consistent.findGhost?_eq_some_iff id i).mp found
    dsimp only
    rw [hr]
    refine settles_bind (h.settles_creditSegment r.tag.segment r.size) fun d credited => ?_
    obtain ⟨sound, account, store, tally, relabelled, -⟩ := credited
    have get : d.contents.store.get? i = some r := by
      rw [store]
      exact hr
    rw [sound.contents.ledger.consistent.delete_eq]
    refine settles_ok_bind <| settles_pure ⟨⟨⟨sound.contents.forget get ghost, sound.turn, sound.accepted,
      sound.segmentSize, sound.aligned⟩, account, fun j => ?_, tally, relabelled.config⟩, ?_⟩
    · rw [← store]
      exact sound.contents.ledger.consistent.live?_forget get ghost j
    · exact ⟨relabelled.config, relabelled.sample?, relabelled.learner.mono fun n hn => ⟨i, r, hr, hid, hn⟩⟩

end credit

theorem settles_due (w : Track) (width now : Int) : Settles t (w.due width now) fun _ => True :=
  settles_bind (settles_subTime _ _) fun _ _ => settles_pure trivial

theorem settles_bump (w : Track) : Settles t w.bump fun _ => True := by
  unfold Track.bump
  cases w.counts with
  | nil => exact settles_pure trivial
  | cons n ns => exact settles_bind (settles_addCount n 1) fun _ _ => settles_pure trivial

theorem settles_recordHit (w : HitWindows) (now : Int) : Settles t (w.recordHit now) fun _ => True := by
  have advance : Settles t (w.advance now) fun _ => True := by
    refine settles_bind (settles_due w.minute 60 now) fun due _ => ?_
    split
    · exact settles_pure trivial
    · refine settles_bind (settles_due w.tenMinutes 600 now) fun due _ => ?_
      split
      · exact settles_pure trivial
      · refine settles_bind (settles_due w.hour 3600 now) fun due _ => ?_
        split
        · exact settles_pure trivial
        · exact settles_pure trivial
  refine settles_bind advance fun w _ => ?_
  refine settles_bind (settles_bump w.minute) fun _ _ => ?_
  refine settles_bind (settles_bump w.tenMinutes) fun _ _ => ?_
  exact settles_bind (settles_bump w.hour) fun _ _ => settles_pure trivial

theorem settles_countHit (s : Segment) (wasActive : Bool) (time : Int) :
    Settles t (countHit s wasActive time) fun u => u.links = s.links ∧ u.bucket = s.bucket ∧
      u.rank = s.rank ∧ u.nextRanked = s.nextRanked ∧ u.objects = s.objects ∧ u.bytes = s.bytes ∧
      u.active = (if wasActive then s.active else s.active + 1) ∧ u.sample? = s.sample? ∧
      u.label = s.label ∧ u.skipped = s.skipped ∧ u.labelledFrom = s.labelledFrom := by
  unfold countHit
  refine settles_bind (settles_recordHit s.windows time) fun windows _ => ?_
  cases wasActive with
  | true => exact settles_pure ⟨rfl, rfl, rfl, rfl, rfl, rfl, rfl, rfl, rfl, rfl, rfl⟩
  | false =>
    refine settles_bind (settles_addCount s.active 1) fun active more => ?_
    exact settles_pure ⟨rfl, rfl, rfl, rfl, rfl, rfl, more, rfl, rfl, rfl, rfl⟩

def marked (req : Request) (now : Int) (sampled : Bool) (r : Record ObjectTag) : Record ObjectTag :=
  { r.touch req now with
    tag := { r.tag with active := true, freq := bumpFreq r.tag.freq, seen := r.tag.seen || sampled } }

theorem Sound.settles_hit {c : Cache μ} (h : c.Sound) (req : Request) {i : Slot} {r : Record ObjectTag}
    (hr : c.contents.store.live? i = some r) :
    Settles t (c.hit req i r) fun d => d.Sound ∧ d.account = c.account ∧ d.tally = c.tally ∧
      d.contents.store = c.contents.store.modify i (marked req c.account.now
        (c.contents.table.sample? r.tag.segment).isSome) ∧
      c.Relabelled (fun n => c.contents.table.rowOf? r.tag.segment = some n) d ∧
      Credited r.tag.segment r.size c d := by
  obtain ⟨g, hg, -⟩ := h.contents.segment_of_live hr
  unfold hit
  dsimp only
  rw [hg]
  dsimp only
  refine settles_bind (settles_countHit g r.tag.active _) fun u counted => ?_
  obtain ⟨links, bucket, rank, next, objects, bytes, active, sample, label, skipped, since⟩ := counted
  have sound := h.contents.hit hr hg (f := marked req c.account.now g.sampled)
    ⟨rfl, rfl, rfl⟩ ⟨rfl, rfl⟩ ⟨links, bucket⟩ ⟨rank, next⟩ ⟨objects, bytes, active⟩
  have sample? : (c.contents.table.modify r.tag.segment fun _ => u).sample? = c.contents.table.sample? := by
    refine c.contents.table.sample?_modify r.tag.segment fun v hv => ?_
    rw [hg] at hv
    cases hv
    exact sample
  have sampled : (c.contents.table.sample? r.tag.segment).isSome = g.sampled := by
    rw [Table.sample?_of_get? hg, Segment.sample?]
    cases g.sampled <;> rfl
  have counted : Sound { c with contents := { c.contents with
      store := c.contents.store.modify i (marked req c.account.now g.sampled)
      table := c.contents.table.modify r.tag.segment fun _ => u } } :=
    ⟨sound, h.turn, h.accepted, h.segmentSize, h.aligned⟩
  refine (counted.settles_creditSegment r.tag.segment r.size).mono fun d credited => ?_
  obtain ⟨sound, account, store, tally, relabelled, graded⟩ := credited
  rw [sampled]
  refine ⟨sound, account, tally, store, ⟨relabelled.config, relabelled.sample?.trans sample?,
    relabelled.learner.mono fun n hn => ?_⟩, fun s n hs row => ?_⟩
  · rw [Table.rowOf?, sample?] at hn
    exact hn
  · cases hg.symm.trans hs
    have there : (c.contents.table.modify r.tag.segment fun _ => u).get? r.tag.segment = some u := by
      rw [Table.get?_modify, if_pos rfl, hg]
      rfl
    obtain ⟨v, hv, graded⟩ := graded u n there (by rw [Table.rowOf?, sample?]; exact row)
    exact ⟨v, hv, graded.of_same label skipped since⟩

theorem Settled.caches_eq {c d : Cache μ} (h : Settled c d) (from_sound : c.Sound) (id : Nat) :
    d.contents.store.caches id = c.contents.store.caches id := by
  rw [Bool.eq_iff_iff, h.sound.contents.ledger.consistent.caches_iff_live,
    from_sound.contents.ledger.consistent.caches_iff_live]
  simp only [h.live]

/-- What a look-up answers and leaves behind. -/
structure Looked (req : Request) (update : Bool) (c : Cache μ) (p : Outcome × Cache μ) : Prop where
  sound : p.2.Sound
  account : p.2.account = c.account
  tally : p.2.tally = c.tally
  hit : p.1 = .hit ↔ c.contents.store.caches req.id = true
  caches : ∀ id, p.2.contents.store.caches id = c.contents.store.caches id
  live : ∀ j u, p.2.contents.store.live? j = some u → ∃ r, c.contents.store.live? j = some r ∧
    r.id = u.id ∧ r.tag.segment = u.tag.segment ∧ u.tag.seen = (r.tag.seen ||
      (update && r.id == req.id && (c.contents.table.sample? r.tag.segment).isSome))
  relabelled : c.Relabelled (c.rowsOf req.id) p.2

theorem Looked.refl {c : Cache μ} (h : c.Sound) (req : Request) {update : Bool} {outcome : Outcome}
    (hit : outcome = .hit ↔ c.contents.store.caches req.id = true)
    (idle : update = true → c.contents.store.find? req.id = none) : Looked req update c (outcome, c) where
  sound := h
  account := rfl
  tally := rfl
  hit := hit
  caches _ := rfl
  live j u hu := by
    refine ⟨u, hu, rfl, rfl, ?_⟩
    cases update with
    | false => simp
    | true =>
      obtain ⟨get, live⟩ := (c.contents.store.live?_eq_some_iff j u).mp hu
      have apart : u.id ≠ req.id := by
        intro e
        have found := (h.contents.ledger.consistent.find?_eq_some_iff req.id j).mpr ⟨u, get, e, live⟩
        rw [idle rfl] at found
        cases found
      simp [apart]
  relabelled := .refl _ c

/-- Crediting a ghost comes last and looks nothing up. -/
theorem Looked.credited {req : Request} {update : Bool} {c d : Cache μ} {outcome : Outcome}
    (h : Looked req update c (outcome, d)) {e : Cache μ} (settled : Settled d e)
    (relabelled : d.Relabelled (c.rowsOf req.id) e) : Looked req update c (outcome, e) where
  sound := settled.sound
  account := settled.account.trans h.account
  tally := settled.tally.trans h.tally
  hit := h.hit
  caches id := (settled.caches_eq h.sound id).trans (h.caches id)
  live j u hu := h.live j u ((settled.live j).symm.trans hu)
  relabelled := h.relabelled.trans relabelled

theorem Looked.of_hit {c d : Cache μ} (h : c.Sound) {req : Request} {i : Slot} {r : Record ObjectTag}
    (hr : c.contents.store.live? i = some r) (hid : r.id = req.id) (sound : d.Sound)
    (account : d.account = c.account) (tally : d.tally = c.tally)
    (store : d.contents.store = c.contents.store.modify i (marked req c.account.now
      (c.contents.table.sample? r.tag.segment).isSome))
    (relabelled : c.Relabelled (c.rowsOf req.id) d) : Looked req true c (.hit, d) where
  sound := sound
  account := account
  tally := tally
  hit := iff_of_true rfl ((h.contents.ledger.consistent.caches_iff_live req.id).mpr ⟨i, r, hr, hid⟩)
  caches id := by
    dsimp only
    rw [store]
    rfl
  live j u hu := by
    have off := c.contents.store.live?_modify i (f := marked req c.account.now
      (c.contents.table.sample? r.tag.segment).isSome) (fun _ _ => rfl) j
    dsimp only at hu
    rw [store, off] at hu
    split at hu
    · rename_i e
      subst e
      rw [hr] at hu
      cases hu
      exact ⟨r, hr, rfl, rfl, by simp [marked, hid]⟩
    · rename_i apart
      refine ⟨u, hu, rfl, rfl, ?_⟩
      have other : u.id ≠ req.id := by
        intro e
        have hi := (c.contents.store.live?_eq_some_iff i r).mp hr
        have hj := (c.contents.store.live?_eq_some_iff j u).mp hu
        exact apart (h.contents.ledger.consistent.live_unique hi.1 hj.1 hi.2 hj.2 (hid.trans e.symm))
      simp [other]
  relabelled := relabelled

theorem rowsOf_of_marked {c d : Cache μ} {req : Request} {i : Slot} {now : Int} {sampled : Bool}
    (store : d.contents.store = c.contents.store.modify i (marked req now sampled))
    (sample? : d.contents.table.sample? = c.contents.table.sample?) {id n : Nat} (hn : d.rowsOf id n) :
    c.rowsOf id n := by
  obtain ⟨j, u, hu, hid, row⟩ := hn
  rw [Table.rowOf?, sample?] at row
  rw [store, Store.get?_modify] at hu
  split at hu
  · obtain ⟨r, hr, rfl⟩ := Option.map_eq_some_iff.mp hu
    exact ⟨j, r, hr, hid, row⟩
  · exact ⟨j, u, hu, hid, row⟩

theorem Sound.settles_check {c : Cache μ} (h : c.Sound) (req : Request) (update : Bool) :
    Settles t (c.check req update) fun p => Looked req update c p := by
  unfold check
  cases found : c.contents.store.find? req.id with
  | none =>
    have missed : Outcome.miss = .hit ↔ c.contents.store.caches req.id = true := by
      simp [Store.caches, found]
    have looked : Looked req update c (.miss, c) := .refl h req missed fun _ => found
    dsimp only
    cases update with
    | false => exact settles_pure looked
    | true =>
      refine settles_bind (h.settles_creditGhost req.id) fun d credited => ?_
      exact settles_pure (looked.credited credited.1 credited.2)
  | some i =>
    have cached : Outcome.hit = .hit ↔ c.contents.store.caches req.id = true := by
      simp [Store.caches, found]
    dsimp only
    cases update with
    | false => exact settles_pure (.refl h req cached fun looking => Bool.noConfusion looking)
    | true =>
      obtain ⟨r, hr, hid, live⟩ := (h.contents.ledger.consistent.find?_eq_some_iff req.id i).mp found
      rw [if_pos rfl, hr]
      have alive := (c.contents.store.live?_eq_some_iff i r).mpr ⟨hr, live⟩
      refine settles_bind (h.settles_hit req alive) fun d hit => ?_
      obtain ⟨sound, account, tally, store, relabelled, -⟩ := hit
      have looked := Looked.of_hit h alive hid sound account tally store
        (relabelled.mono fun n row => ⟨i, r, hr, hid, row⟩)
      refine settles_bind (sound.settles_creditGhost req.id) fun e credited => ?_
      refine settles_pure (looked.credited credited.1 ?_)
      exact credited.2.mono fun n => rowsOf_of_marked store relabelled.sample?

section insert

theorem bucketFor_lt (c : Cache μ) (size : Nat) : c.bucketFor size < liveBuckets := by
  unfold bucketFor
  split
  · exact Nat.zero_lt_succ _
  · exact Nat.lt_of_le_of_lt (Nat.min_le_right _ _) (by decide)

theorem writable?_eq_some {a : Table} {seqs : Nat → List Slot} (h : a.Strung seqs none) {k : Nat}
    {i : Slot} (e : writable? a k = some i) :
    ∃ g, a.get? i = some g ∧ g.bucket = k ∧ g.objects.size < a.segmentSize := by
  simp only [writable?, Option.bind_eq_bind, Option.bind_eq_some_iff] at e
  obtain ⟨j, back, g, hg, room⟩ := e
  split at room
  · cases room
    have last : (seqs k).getLast? = some i := (h.family.represents k).back_eq.symm.trans back
    obtain ⟨u, hu, home⟩ := (h.mem_iff k i).mp (List.mem_of_getLast? last)
    rw [hg] at hu
    cases hu
    exact ⟨g, hg, home, by assumption⟩
  · cases room

theorem Sound.settles_openSegment {c : Cache μ} (h : c.Sound) {k : Nat} (hk : k < liveBuckets) :
    Settles t (c.openSegment k) fun p => Contents.Sound { c.contents with table := p.2 } ∧
      p.2.segmentSize = c.contents.table.segmentSize ∧ p.2.sample? = c.contents.table.sample? ∧
      ∃ g, p.2.get? p.1 = some g ∧ g.bucket ≠ quarantine ∧ g.objects.size < p.2.segmentSize := by
  have away : k ≠ quarantine := Nat.ne_of_lt hk
  unfold openSegment
  dsimp only
  cases found : writable? c.contents.table k with
  | some i =>
    obtain ⟨g, hg, home, room⟩ := writable?_eq_some h.contents.strung found
    exact settles_pure ⟨h.contents, rfl, rfl, g, hg, by rw [home]; exact away, room⟩
  | none =>
    have room := Nat.lt_of_succ_lt (Config.bounds_of_validate h.accepted).1
    have opens : ∀ b, Contents.Sound { c.contents with table := b } →
        b.segmentSize = c.contents.table.segmentSize → b.sample? = c.contents.table.sample? →
        ∀ p : Slot × Table, Table.Opened p.1 b p.2 →
        Contents.Sound { c.contents with table := p.2 } ∧
          p.2.segmentSize = c.contents.table.segmentSize ∧ p.2.sample? = c.contents.table.sample? ∧
          ∃ g, p.2.get? p.1 = some g ∧ g.bucket ≠ quarantine ∧ g.objects.size < p.2.segmentSize := by
      intro b sound size sample? p opened
      obtain ⟨g, hg, home, objects, -⟩ := opened.segment
      have capacity := opened.segmentSize.trans size
      refine ⟨sound.opened opened, capacity, opened.sample?_eq.trans sample?, g, hg, home, ?_⟩
      rw [objects, capacity, h.segmentSize]
      exact room
    dsimp only
    cases (c.contents.table.bucket k).chain.back with
    | none => exact (h.contents.settles_openLast hk _ _).mono (opens _ h.contents rfl rfl)
    | some i =>
      have sound := h.contents.modifySegment i (f := fun s => { s with rates := c.load.rates })
        fun g _ => ⟨rfl, rfl, rfl, rfl⟩
      exact (sound.settles_openLast hk _ _).mono
        (opens _ sound rfl (c.contents.table.sample?_modify i fun _ _ => rfl))

/-- What an admission leaves behind. -/
structure Admitted (req : Request) (c d : Cache μ) : Prop where
  sound : d.Sound
  account : d.account = c.account.charged req.size
  tally : d.tally = c.tally
  caches : d.contents.store.caches req.id = true
  live : ∀ j u, d.contents.store.live? j = some u →
    c.contents.store.live? j = some u ∨ (u.id = req.id ∧ u.tag.seen = false)
  relabelled : c.Relabelled (fun _ => False) d

theorem Sound.settles_insert {c : Cache μ} (h : c.Sound) {req : Request}
    (missed : ¬c.contents.store.caches req.id = true)
    (room : c.account.occupied + (req.size + c.account.overhead) ≤ c.account.capacity) :
    Settles t (c.insert req) fun p => Admitted req c p.2 := by
  have free : c.contents.store.find? req.id = none := by
    rw [Store.caches, Bool.not_eq_true, Option.isSome_eq_false_iff, Option.isNone_iff_eq_none] at missed
    exact missed
  unfold insert
  refine settles_bind (h.settles_openSegment (c.bucketFor_lt req.size)) fun p opened => ?_
  obtain ⟨segment, table⟩ := p
  obtain ⟨sound, size, sample?, g, hg, home, fits⟩ := opened
  dsimp only at sound size sample? hg fits ⊢
  refine settles_bind (sound.ledger.consistent.settles_insert c.account.now (.fresh segment) free)
    fun p admits => ?_
  obtain ⟨i, store⟩ := p
  dsimp only at admits ⊢
  refine settles_bind (c.account.settles_footprint req.size) fun footprint hf => ?_
  obtain ⟨rfl, -⟩ := hf
  refine settles_bind (settles_addWord _ _) fun bytes hb => ?_
  obtain ⟨rfl, -⟩ := hb
  refine settles_bind (c.account.settles_charge req.size) fun account charged => ?_
  obtain ⟨rfl, word⟩ := charged
  have bytes : ((table.get? segment).map (·.bytes)).getD 0 + (req.size + c.account.overhead) =
      g.bytes + (req.size + c.account.overhead) := by
    rw [hg]
    rfl
  have pushed := sound.push admits word room hg home fits rfl bytes
  obtain ⟨expiry, live⟩ := admits.live?
  refine settles_pure ⟨⟨pushed, h.turn, h.accepted, size.trans h.segmentSize, h.aligned⟩, rfl, rfl, ?_,
    fun j u hu => ?_, .of_sample? rfl rfl ?_⟩
  · have self := live i
    rw [if_pos rfl] at self
    exact (admits.consistent.caches_iff_live req.id).mpr ⟨i, _, self, rfl⟩
  · rw [show store.live? j = _ from live j] at hu
    split at hu
    · cases hu
      exact .inr ⟨rfl, rfl⟩
    · exact .inl hu
  · rw [← sample?]
    exact table.sample?_modify segment fun _ _ => rfl

end insert

structure Removed (id : Nat) (c : Cache μ) (p : Bool × Cache μ) : Prop where
  sound : p.2.Sound
  tally : p.2.tally = c.tally
  absent : p.1 = false → p.2 = c
  account : p.1 = true → ∃ r, c.record? id = some r ∧ p.2.account = c.account.released r.size ∧
    r.size + c.account.overhead ≤ c.account.occupied ∧ 0 < c.account.objects
  live : ∀ j u, p.2.contents.store.live? j = some u → c.contents.store.live? j = some u
  relabelled : c.Relabelled (fun _ => False) p.2

theorem Sound.settles_remove {c : Cache μ} (h : c.Sound) (id : Nat) :
    Settles t (c.remove id) fun p => Removed id c p := by
  unfold remove
  cases found : c.contents.store.find? id with
  | none => exact settles_pure ⟨h, rfl, fun _ => rfl, nofun, fun _ _ hu => hu, .refl _ c⟩
  | some i =>
    obtain ⟨r, hr, -, live⟩ := (h.contents.ledger.consistent.find?_eq_some_iff id i).mp found
    have alive := (c.contents.store.live?_eq_some_iff i r).mpr ⟨hr, live⟩
    obtain ⟨g, hg, -⟩ := h.contents.segment_of_live alive
    dsimp only
    rw [h.contents.ledger.consistent.delete_eq, hr]
    refine settles_ok_bind ?_
    dsimp only
    rw [hg]
    refine settles_bind (c.account.settles_footprint r.size) fun footprint hf => ?_
    obtain ⟨rfl, -⟩ := hf
    refine settles_bind (settles_subWord _ _) fun bytes hbytes => ?_
    have finish : ∀ active, g.active = (if r.tag.active = true then 1 else 0) + active →
        Settles t (do
          let account ← c.account.release r.size
          pure (true, { c with contents := ⟨c.contents.table.modify r.tag.segment fun s =>
            { s with objects := s.objects.filter (· != i), bytes, active },
            c.contents.store.without i, account⟩ }) : Checked (Bool × Cache μ))
          fun p => Removed id c p := by
      intro active hactive
      have held := Store.liveSize?_of_live hr live
      refine settles_bind (h.contents.ledger.balanced.settles_release held) fun account released => ?_
      subst released
      refine settles_pure ⟨⟨h.contents.pull alive hg hbytes hactive, h.turn, h.accepted, h.segmentSize,
        h.aligned⟩,
        rfl, nofun, fun _ => ⟨r, ?_, rfl, h.contents.ledger.balanced.covers held⟩, fun j u hu => ?_,
        .of_sample? rfl rfl (c.contents.table.sample?_modify _ fun _ _ => rfl)⟩
      · rw [record?, Store.findRecord?, found]
        exact hr
      · rw [show (c.contents.store.without i).live? j = _ from
          h.contents.ledger.consistent.live?_without hr j] at hu
        split at hu
        · cases hu
        · exact hu
    split
    · rename_i active
      refine settles_bind (settles_subWord g.active 1) fun rest hrest => finish rest ?_
      rw [if_pos active]
      exact hrest
    · rename_i passive
      refine finish g.active ?_
      rw [if_neg passive, Nat.zero_add]

section evict

theorem settles_countEvicted (tally : Tally) (before after : Account) (objects : Nat) :
    Settles t (countEvicted tally before after objects) fun u =>
      u.evictedObjects = tally.evictedObjects + objects ∧
      u.evictedBytes + after.occupied = tally.evictedBytes + before.occupied := by
  refine settles_bind (settles_subWord _ _) fun freed hfreed => ?_
  refine settles_bind (settles_addWord _ _) fun bytes hbytes => settles_pure ⟨rfl, ?_⟩
  have := hbytes.1
  dsimp only
  omega

theorem settles_noticed (c : Cache μ) (time : Int) : Settles t (c.noticed time) fun _ => True := by
  unfold noticed
  split
  · exact settles_pure trivial
  · exact settles_bind (settles_subTime _ _) fun elapsed _ => settles_pure trivial

/-- What an eviction leaves behind; what left the cache is in the tally. -/
structure Shed (c d : Cache μ) : Prop where
  sound : d.Sound
  evicts : ∃ ps n, Contents.Evicts ps n c.contents d.contents
  config : d.config = c.config
  learner : d.learner = c.learner
  objects : d.tally.evictedObjects + d.account.objects = c.tally.evictedObjects + c.account.objects
  bytes : d.tally.evictedBytes + d.account.occupied = c.tally.evictedBytes + c.account.occupied

theorem Shed.relabelled {c d : Cache μ} (h : Shed c d) (rows : Nat → Prop) : c.Relabelled rows d := by
  obtain ⟨ps, n, evicts⟩ := h.evicts
  exact .of_sample? h.config h.learner evicts.sample?

theorem Shed.of_evicts {c d : Cache μ} (h : c.Sound) {ps : List Slot} {n : Nat}
    (evicts : Contents.Evicts ps n c.contents d.contents) (turn : d.turn = c.turn)
    (config : d.config = c.config) (learner : d.learner = c.learner)
    (objects : d.tally.evictedObjects = c.tally.evictedObjects + n)
    (bytes : d.tally.evictedBytes + d.account.occupied = c.tally.evictedBytes + c.account.occupied) :
    Shed c d where
  sound := ⟨evicts.sound, by rw [turn]; exact h.turn, by rw [config]; exact h.accepted, by
    rw [evicts.segmentSize, config]
    exact h.segmentSize, by rw [learner]; exact h.aligned⟩
  evicts := ⟨ps, n, evicts⟩
  config := config
  learner := learner
  objects := by
    have count : n + d.account.objects = c.account.objects := evicts.count
    omega
  bytes := bytes

theorem Sound.settles_evictSingle {c : Cache μ} (h : c.Sound) {i : Slot}
    (legal : (Choice.single i).Legal c.contents.table.chainOf c.config.mergeCount) :
    Settles t (c.evictSingle i) fun d => Shed c d ∧ d.contents.table.inUse < c.contents.table.inUse := by
  obtain ⟨k, hk, hi⟩ := legal
  unfold evictSingle
  refine settles_bind (c.settles_noticed _) fun lastNotice _ => ?_
  refine settles_bind (h.contents.yields_evictSegment hk hi c.moment).settles fun q evicted => ?_
  obtain ⟨n, contents⟩ := q
  obtain ⟨evicts, fewer⟩ := evicted
  refine settles_bind (settles_countEvicted _ _ _ _) fun tally counted => ?_
  exact settles_pure ⟨.of_evicts h evicts rfl rfl rfl counted.1 counted.2, fewer⟩

theorem Sound.settles_evictRun {c : Cache μ} (h : c.Sound) {run : List Slot}
    (legal : (Choice.merge run).Legal c.contents.table.chainOf c.config.mergeCount) :
    Settles t (c.evictRun run) fun d => Shed c d ∧ d.contents.table.inUse < c.contents.table.inUse := by
  obtain ⟨-, two, pos, -⟩ := Config.bounds_of_validate h.accepted
  unfold evictRun
  refine settles_bind (settles_scoresOf _ _ _ _ _) fun exact _ => ?_
  generalize (if c.config.jitter = true then disturb exact c.random else (exact, c.random)) = p
  obtain ⟨scores, random⟩ := p
  dsimp only
  refine settles_bind (settles_cutoff scores pos) fun bar _ => ?_
  refine settles_bind (h.contents.settles_merge legal two scores bar c.moment) fun q done => ?_
  obtain ⟨did, contents⟩ := q
  obtain ⟨evicts, fewer⟩ := done
  refine settles_bind (settles_countEvicted _ _ _ _) fun tally counted => ?_
  exact settles_pure ⟨.of_evicts h evicts rfl rfl rfl counted.1 counted.2, fewer⟩

/-- What was chosen comes from the same segments, whatever their order and utilities were then. -/
theorem Shed.of_chosen {c d : Cache μ} {chooser : Chooser} (h : Shed (c.withChooser chooser) d)
    (carried : Table.Carried c.contents.table chooser.table) : Shed c d where
  sound := h.sound
  evicts := by
    obtain ⟨ps, n, evicts⟩ := h.evicts
    exact ⟨ps, n, evicts.of_carried carried⟩
  config := h.config
  learner := h.learner
  objects := h.objects
  bytes := h.bytes

theorem Sound.withChooser {c : Cache μ} (h : c.Sound) {chooser : Chooser}
    (fit : chooser.Fit c.contents.table.chainOf c.contents.table) : (c.withChooser chooser).Sound :=
  ⟨h.contents.carried fit.settled.strung fit.settled.ranked fit.settled.carried, fit.turn, h.accepted,
    fit.settled.carried.segmentSize.trans h.segmentSize, h.aligned⟩

/-- An eviction always succeeds while a segment is live, and then fewer of them are. -/
theorem Sound.settles_evict [Regressor μ] {c : Cache μ} (h : c.Sound) :
    Settles t c.evict fun p => Shed c p.2 ∧ (0 < c.contents.table.inUse → p.1 = true) ∧
      (p.1 = true → p.2.contents.table.inUse < c.contents.table.inUse) := by
  have two := (Config.bounds_of_validate h.accepted).2.1
  unfold evict
  refine settles_bind (c.settles_choose h.contents.strung h.contents.ranked h.turn
    (Nat.lt_of_succ_lt two)) fun p chose => ?_
  obtain ⟨choice, d⟩ := p
  obtain ⟨chooser, rfl, fit, legal, some⟩ := chose
  have sound := h.withChooser fit
  have inUse : (c.withChooser chooser).contents.table.inUse = c.contents.table.inUse :=
    fit.settled.inUse_eq h.contents.strung
  have chains : (c.withChooser chooser).contents.table.chainOf = c.contents.table.chainOf :=
    funext fun k => fit.settled.strung.chainOf_eq k
  have shed : ∀ d, Shed (c.withChooser chooser) d ∧
      d.contents.table.inUse < (c.withChooser chooser).contents.table.inUse →
      Shed c d ∧ (0 < c.contents.table.inUse → true = true) ∧
        (true = true → d.contents.table.inUse < c.contents.table.inUse) := by
    intro d done
    rw [inUse] at done
    exact ⟨done.1.of_chosen fit.settled.carried, fun _ => rfl, fun _ => done.2⟩
  cases choice with
  | none =>
    have idle : Shed (c.withChooser chooser) (c.withChooser chooser) :=
      .of_evicts sound sound.contents.evicts_nothing rfl rfl rfl rfl rfl
    refine settles_pure ⟨idle.of_chosen fit.settled.carried, fun pos => ?_, nofun⟩
    cases some pos
  | some choice =>
    have allowed := legal choice rfl
    rw [← chains] at allowed
    cases choice with
    | merge run => exact settles_bind (sound.settles_evictRun allowed) fun d done => settles_pure (shed d done)
    | single i => exact settles_bind (sound.settles_evictSingle allowed) fun d done => settles_pure (shed d done)

end evict

end Cache
end GLCache
end CacheReplay
