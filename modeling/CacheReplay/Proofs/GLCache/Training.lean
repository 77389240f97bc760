import CacheReplay.Proofs.GLCache.Operations

set_option autoImplicit false

namespace CacheReplay

namespace Regression.Samples
open GLCache

variable {t : Tolerance}

def pushAll (s : Samples) (xs : List Sample) : Samples :=
  xs.foldl (fun s x => s.push x.features x.label) s

theorem size_pushAll (s : Samples) (xs : List Sample) : (s.pushAll xs).size = s.size + xs.length := by
  induction xs generalizing s with
  | nil => rfl
  | cons x xs ih =>
    rw [pushAll, List.foldl_cons, ← pushAll, ih, size_push, List.length_cons]
    omega

theorem Aligned.pushAll {s : Samples} {width : Nat} (h : s.Aligned width) {xs : List Sample}
    (wide : ∀ x ∈ xs, x.features.size = width) : (s.pushAll xs).Aligned width := by
  induction xs generalizing s with
  | nil => exact h
  | cons x xs ih =>
    rw [List.forall_mem_cons] at wide
    refine ih ?_ wide.2
    rw [Samples.Aligned, features_push, Array.size_append, h, wide.1, size_push, Nat.succ_mul]

/-- Where rows and labels match, the row of each label can be cut out. -/
theorem settles_row {s : Samples} {width : Nat} (h : s.Aligned width) {i : Nat} (hi : i < s.size) :
    Settles t (s.row width i) fun x => x = s.features.extract (i * width) ((i + 1) * width) := by
  unfold row
  refine settles_bind (settles_mulWord _ _) fun start hstart => ?_
  refine settles_bind (settles_addWord _ _) fun next hnext => ?_
  refine settles_bind (settles_mulWord _ _) fun stop hstop => ?_
  rw [hnext.1] at hstop
  subst hstart hstop
  have bound : (i + 1) * width ≤ s.features.size := by
    rw [h]
    exact Nat.mul_le_mul_right _ (Nat.succ_le_of_lt hi)
  rw [if_pos bound]
  exact settles_pure rfl

end Regression.Samples

namespace GLCache
open Regression

variable {μ : Type} {t : Tolerance}

namespace Learner

def markAll (now : Int) : Nat → List Slot → Table → Table
  | _, [], a => a
  | row, i :: rest, a => markAll now (row + 1) rest (mark a i row now)

theorem enroll_eq (now : Int) (picked : List (Slot × Sample)) (s : Samples) (a : Table) :
    enroll now picked s a = (s.pushAll (picked.map (·.2)), markAll now s.size (picked.map (·.1)) a) := by
  induction picked generalizing s a with
  | nil => rfl
  | cons p rest ih => rw [enroll, ih, Samples.size_push]; rfl

theorem settles_divide {s : Samples} (h : s.Aligned featureCount) (low high : Float32) (maxValid : Nat)
    {k : Nat} {labels : List Float32} (length : k + labels.length = s.size) (d : TrainingData) :
    Settles t (divide s low high maxValid k labels d) fun _ => True := by
  induction labels generalizing k d with
  | nil => exact settles_pure trivial
  | cons y rest ih =>
    rw [List.length_cons] at length
    refine settles_bind (Samples.settles_row h (by omega)) fun x _ => ?_
    exact ih (by omega) _

theorem settles_prepare (l : Learner μ) (aligned : l.samples.Aligned featureCount) :
    Settles t l.prepare fun _ => True :=
  settles_divide aligned _ _ _ (by rw [Nat.zero_add, Array.length_toList]; rfl) _

def trainingData (l : Learner μ) : TrainingData :=
  match l.prepare with
  | .ok d => d
  | .error _ => .empty featureCount

end Learner

def Learner.trained {ε : Type} (l : Learner μ) (result : Except ε Unit) (model : μ) (time : Int) :
    Learner μ :=
  match result with
  | .ok () => { l with
      model, samples := .empty, lastTraining := time, trainings := l.trainings + 1, ready := true }
  | .error _ => { l with
      model, samples := .empty, lastTraining := time, failures := l.failures + 1, ready := false }

theorem Load.settles_record (l : Load) (hit : Bool) (now : Moment) :
    Settles t (l.record hit now) fun _ => True := by
  unfold record
  refine settles_bind (settles_subTime _ _) fun seconds _ => ?_
  split
  · exact settles_pure trivial
  · refine settles_bind (settles_subTime _ _) fun served _ => ?_
    split
    · exact settles_pure trivial
    · exact settles_pure trivial

namespace Cache

def snapshots (c : Cache μ) : Bool :=
  c.config.signal.trained &&
    match c.learner.nextStep c.account.clock c.config.warmup c.config.retrainInterval with
    | .ok .wait => false
    | _ => true

/-- The cache after a snapshot that picked some segments. -/
def sampling (c : Cache μ) (picked : List (Slot × Sample)) : Cache μ :=
  { c with
    learner := { c.learner with samples := c.learner.samples.pushAll (picked.map (·.2)) }
    contents := { c.contents with
      table := Learner.markAll c.moment.now c.learner.samples.size (picked.map (·.1))
        (c.contents.table.live.foldl (fun t i => t.modify i Learner.unsample) c.contents.table) } }

structure Picked (c : Cache μ) (picked : List (Slot × Sample)) : Prop where
  sub : (picked.map (·.1)).Sublist (Learner.candidates c.contents.table)
  room : picked.length ≤ c.learner.maxRows - c.learner.samples.size
  features : ∀ x ∈ picked, x.2.features.size = featureCount

/-- A cache that is ready for a snapshot. -/
inductive Prepared [Regressor μ] (c : Cache μ) : Cache μ → Prop
  | first (unstarted : c.learner.started = false) : Prepared c { c with
      learner := { c.learner with started := true, lastTraining := c.account.clock } }
  | trained {result : Except FitError Unit} {model : μ} (started : c.learner.started = true)
      (fit : Regressor.fit c.learner.model c.learner.trainingData = .ok (result, model)) :
      Prepared c { c with
        learner := c.learner.trained result model c.account.clock
        contents := c.contents.unquarantined }

/-- What becomes of a cache whose learner had its turn. -/
def Taught [Regressor μ] (c d : Cache μ) : Prop :=
  (c.snapshots = false ∧ d = c) ∨
    (c.snapshots = true ∧ ∃ b picked, Prepared c b ∧ b.Picked picked ∧ d = b.sampling picked)

section snapshot

theorem settles_firstLabel (c : Contents) (s : Segment) (m : Moment) (how : Labelling) :
    Settles t (Learner.firstLabel c s m how) fun _ => True := by
  unfold Learner.firstLabel
  split
  · exact settles_pure trivial
  · exact settles_bind (settles_lossOf _ _ _ _ _ _) fun _ _ => settles_pure trivial

theorem settles_pick (c : Contents) (m : Moment) (how : Labelling) (ratio credit : Float) (room : Nat)
    (candidates : List Slot) :
    Settles t (Learner.pick c m how ratio credit room candidates) fun picked =>
      (picked.map (·.1)).Sublist candidates ∧ picked.length ≤ room ∧
      ∀ x ∈ picked, x.2.features.size = featureCount := by
  induction candidates generalizing credit room with
  | nil => exact settles_pure ⟨.slnil, Nat.zero_le _, nofun⟩
  | cons i rest ih =>
    have skip : ∀ credit room, Settles t (Learner.pick c m how ratio credit room rest) fun picked =>
        (picked.map (·.1)).Sublist (i :: rest) ∧ picked.length ≤ room ∧
        ∀ x ∈ picked, x.2.features.size = featureCount := fun credit room =>
      (ih credit room).mono fun _ picked => ⟨picked.1.cons i, picked.2⟩
    unfold Learner.pick
    dsimp only
    cases c.table.get? i with
    | none => exact skip _ _
    | some s =>
      dsimp only
      split
      · rename_i taken
        have room_pos : 0 < room := by
          simp only [Bool.and_eq_true, decide_eq_true_eq] at taken
          exact taken.2
        refine settles_bind (settles_firstLabel c s m how) fun label _ => ?_
        refine settles_bind (s.settles_features m.time) fun features size => ?_
        refine settles_bind (ih _ _) fun more picked => settles_pure ⟨?_, ?_, ?_⟩
        · exact picked.1.cons_cons i
        · have fewer := picked.2.1
          rw [List.length_cons]
          omega
        · intro x hx
          rcases List.mem_cons.mp hx with rfl | hx
          · exact size
          · exact picked.2.2 x hx
      · exact skip _ _

theorem settles_snapshot (c : Cache μ) :
    Settles t c.snapshot fun d => ∃ picked, c.Picked picked ∧ d = c.sampling picked := by
  unfold snapshot Learner.snapshot
  rw [bind_assoc]
  refine settles_bind (settles_pick _ _ _ _ _ _ _) fun picked spec => ?_
  dsimp only
  rw [Learner.enroll_eq]
  exact settles_pure ⟨picked, ⟨spec.1, spec.2.1, spec.2.2⟩, rfl⟩

theorem sound_unsampled {c : Contents} (l : List Slot) {b : Table}
    (h : Contents.Sound { c with table := b }) :
    Contents.Sound { c with table := l.foldl (fun a i => a.modify i Learner.unsample) b } ∧
      (l.foldl (fun a i => a.modify i Learner.unsample) b).segmentSize = b.segmentSize := by
  induction l generalizing b with
  | nil => exact ⟨h, rfl⟩
  | cons i rest ih => exact ih (h.modifySegment i fun g _ => ⟨rfl, rfl, rfl, rfl⟩)

theorem sound_markAll {c : Contents} (now : Int) (l : List Slot) (row : Nat) {b : Table}
    (h : Contents.Sound { c with table := b }) :
    Contents.Sound { c with table := Learner.markAll now row l b } ∧
      (Learner.markAll now row l b).segmentSize = b.segmentSize := by
  induction l generalizing row b with
  | nil => exact ⟨h, rfl⟩
  | cons i rest ih => exact ih (row + 1) (h.modifySegment i fun g _ => ⟨rfl, rfl, rfl, rfl⟩)

theorem Sound.sampling {c : Cache μ} (h : c.Sound) {picked : List (Slot × Sample)} (pick : c.Picked picked) :
    Settled c (c.sampling picked) := by
  obtain ⟨unsampled, size⟩ := sound_unsampled c.contents.table.live h.contents
  obtain ⟨marked, size'⟩ :=
    sound_markAll c.moment.now (picked.map (·.1)) c.learner.samples.size unsampled
  have wide : ∀ x ∈ picked.map (·.2), x.features.size = featureCount := by
    rw [List.forall_mem_map]
    exact pick.features
  exact ⟨⟨marked, h.turn, h.accepted, (size'.trans size).trans h.segmentSize, h.aligned.pushAll wide⟩, rfl,
    fun _ => rfl, rfl, rfl⟩

end snapshot

section training
variable [Regressor μ]

theorem Prepared.settled {c b : Cache μ} (h : c.Sound) (prepared : Prepared c b) : Settled c b := by
  cases prepared with
  | first => exact ⟨⟨h.contents, h.turn, h.accepted, h.segmentSize, h.aligned⟩, rfl, fun _ => rfl, rfl, rfl⟩
  | @trained result model _ fit =>
    have cleared := h.contents.unquarantined
    have aligned : (c.learner.trained result model c.account.clock).samples.Aligned featureCount := by
      cases result <;> exact (Nat.zero_mul _).symm
    exact ⟨⟨cleared.sound, h.turn, h.accepted, cleared.segmentSize.trans h.segmentSize, aligned⟩,
      cleared.account, cleared.live, rfl, rfl⟩

omit [Regressor μ] in
theorem Settled.trans {c d e : Cache μ} (h : Settled c d) (k : Settled d e) : Settled c e where
  sound := k.sound
  account := k.account.trans h.account
  live i := (k.live i).trans (h.live i)
  tally := k.tally.trans h.tally
  config := k.config.trans h.config

theorem Taught.settled {c d : Cache μ} (h : c.Sound) (taught : Taught c d) : Settled c d := by
  rcases taught with ⟨-, rfl⟩ | ⟨-, b, picked, prepared, pick, rfl⟩
  · exact ⟨h, rfl, fun _ => rfl, rfl, rfl⟩
  · have ready := prepared.settled h
    exact ready.trans (ready.sound.sampling pick)

variable (fits : ∀ (m : μ) (d : TrainingData) (f : Fault), Regressor.fit m d = .error f → t.allows f)
include fits

/-- A training run empties the quarantine, whether or not the fit succeeds. -/
theorem settles_train {l : Learner μ} {c : Contents} (prepares : Settles t l.prepare fun _ => True)
    (sound : c.Sound) (time : Int) : Settles t (l.train c time) fun q => ∃ result model,
      Regressor.fit l.model l.trainingData = .ok (result, model) ∧
      q = (l.trained result model time, c.unquarantined) := by
  have fitted : Settles t (Regressor.fit l.model l.trainingData) fun _ => True := by
    cases e : Regressor.fit l.model l.trainingData with
    | ok p => exact trivial
    | error f => exact fits _ _ _ e
  unfold Learner.train
  refine settles_bind prepares.eq_ok fun data prepared => ?_
  have same : data = l.trainingData := by rw [Learner.trainingData, prepared.1]
  rw [same, sound.clearQuarantine_eq]
  refine settles_ok_bind (settles_bind fitted.eq_ok fun p fit => ?_)
  obtain ⟨result, model⟩ := p
  obtain ⟨fit, -⟩ := fit
  cases result with
  | ok _ => exact settles_pure ⟨_, model, fit, rfl⟩
  | error _ => exact settles_pure ⟨_, model, fit, rfl⟩

omit [Regressor μ] fits in
theorem settles_nextStep (l : Learner μ) (time warmup interval : Int) :
    Settles t (l.nextStep time warmup interval) fun step =>
      l.nextStep time warmup interval = .ok step ∧ (step = .firstSnapshot → l.started = false) ∧
        (step = .retrain → l.started = true) := by
  refine Settles.eq_ok ?_
  unfold Learner.nextStep
  split
  · exact settles_pure ⟨nofun, nofun⟩
  · split
    · rename_i unstarted
      exact settles_pure ⟨fun _ => by simpa using unstarted, nofun⟩
    · rename_i started
      have started : l.started = true := by simpa using started
      refine settles_bind (settles_subTime _ _) fun elapsed _ => ?_
      refine settles_bind (settles_addTime _ _) fun bound _ => settles_pure ?_
      split <;> exact ⟨nofun, fun _ => started⟩

theorem Sound.settles_learn {c : Cache μ} (h : c.Sound) (signal : c.config.signal.trained = true) :
    Settles t c.learn fun d => Taught c d := by
  have ready : ∀ b, Prepared c b → c.snapshots = true → Settles t b.snapshot fun d => Taught c d := by
    intro b prepared due
    refine (settles_snapshot b).mono fun d taken => ?_
    obtain ⟨picked, spec, rfl⟩ := taken
    exact .inr ⟨due, b, picked, prepared, spec, rfl⟩
  refine settles_bind (settles_nextStep _ _ _ _) fun step next => ?_
  obtain ⟨next, unstarted, started⟩ := next
  cases step with
  | wait => exact settles_pure (.inl ⟨by simp [snapshots, next], rfl⟩)
  | firstSnapshot => exact ready _ (.first (unstarted rfl)) (by simp [snapshots, signal, next])
  | retrain =>
    have prepares := c.learner.settles_prepare (t := t) h.aligned
    refine settles_bind (settles_train fits prepares h.contents _) fun q trained => ?_
    obtain ⟨result, model, fit, rfl⟩ := trained
    exact ready _ (.trained (started rfl) fit) (by simp [snapshots, signal, next])

theorem Sound.settles_teach {c : Cache μ} (h : c.Sound) (hit : Bool) :
    Settles t (c.settle hit) fun d => ∃ e load, Taught c e ∧ d = { e with load } := by
  have loaded : ∀ e, Taught c e → Settles t (do
      let load ← e.load.record hit e.moment
      pure { e with load } : Checked (Cache μ)) fun d => ∃ e load, Taught c e ∧ d = { e with load } := by
    intro e taught
    exact settles_bind (e.load.settles_record hit e.moment) fun load _ =>
      settles_pure ⟨e, load, taught, rfl⟩
  unfold settle
  split
  · rename_i signal
    exact settles_bind (h.settles_learn fits signal) loaded
  · rename_i untrained
    exact loaded c (.inl ⟨by simp [snapshots, untrained], rfl⟩)

theorem Sound.settles_settle {c : Cache μ} (h : c.Sound) (hit : Bool) :
    Settles t (c.settle hit) fun d => Settled c d := by
  refine (h.settles_teach fits hit).mono fun d done => ?_
  obtain ⟨e, load, taught, rfl⟩ := done
  have settled := taught.settled h
  exact ⟨⟨settled.sound.contents, settled.sound.turn, settled.sound.accepted, settled.sound.segmentSize,
    settled.sound.aligned⟩, settled.account, settled.live, settled.tally, settled.config⟩

end training

/-- Occupied bytes are those of objects that live segments list. -/
theorem Sound.inUse_pos {c : Cache μ} (h : c.Sound) (pos : 0 < c.account.occupied) :
    0 < c.account.objects ∧ 0 < c.contents.table.inUse := by
  have balanced := h.contents.ledger.balanced
  have objects : 0 < c.account.objects := by
    rw [Nat.pos_iff_ne_zero]
    intro none
    have empty : c.account.occupied = 0 := balanced.occupied_eq_zero none
    omega
  obtain ⟨i, r, hr, live⟩ := balanced.exists_live objects
  obtain ⟨g, hg, home, -⟩ :=
    h.contents.segment_of_live ((c.contents.store.live?_eq_some_iff i r).mpr ⟨hr, live⟩)
  refine ⟨objects, ?_⟩
  rw [h.contents.strung.inUse_eq]
  exact List.length_pos_of_mem ((h.contents.strung.mem_live_iff _).mpr ⟨g, hg, home⟩)

open EvictionPolicy in
theorem admissible [Regressor μ] : Admissible t (fun (c : Cache μ) id => c.contents.store.caches id = true)
    (fun c id => ¬c.contents.store.caches id = true) Sound where
  account_withAccount _ _ := rfl
  begun _ req h := h.begun req
  within _ h := h.contents.ledger.within
  evictable c h pos := h.inUse_pos pos
  check c req update h := by
    refine (h.settles_check req update).mono fun p looked => ?_
    refine ⟨looked.sound, ?_, fun _ => ⟨fun cached => ?_, fun missed => ?_⟩⟩
    · rw [show EvictionPolicy.account p.2 = EvictionPolicy.account c from looked.account]
      exact .refl _
    · rw [looked.caches]
      exact looked.hit.mp cached
    · rw [looked.caches]
      exact fun cached => missed (looked.hit.mpr cached)
  evict c req h := by
    refine h.settles_evict.mono fun p done => ?_
    obtain ⟨shed, some, fewer⟩ := done
    obtain ⟨ps, n, evicts⟩ := shed.evicts
    refine ⟨shed.sound, evicts.sheds.terms, fun id absent cached => absent ?_, fun pos => some ?_, fewer⟩
    · exact evicts.caches h.contents.ledger.consistent cached
    · exact (h.inUse_pos pos).2
  insert c req h missed room := by
    refine (h.settles_insert missed room).mono fun p admitted => ⟨admitted.sound, ?_, admitted.caches⟩
    rw [show EvictionPolicy.account p.2 = c.account.charged req.size from admitted.account]
    exact c.account.sameTerms_charged req.size

open EvictionPolicy in
theorem dependable [Regressor μ]
    (fits : ∀ (m : μ) (d : TrainingData) (f : Fault), Regressor.fit m d = .error f → t.allows f) :
    Dependable t (fun (c : Cache μ) id => c.contents.store.caches id = true)
      (fun c id => ¬c.contents.store.caches id = true) Sound where
  toAdmissible := admissible
  remove _ id h := (h.settles_remove id).mono fun _ removed => removed.sound
  settle c hit h := by
    refine (h.settles_settle fits hit).mono fun d done => ⟨done.sound, ?_, fun id => ?_⟩
    · rw [show EvictionPolicy.account d = EvictionPolicy.account c from done.account]
      exact .refl _
    · rw [done.caches_eq h]

end Cache
end GLCache
end CacheReplay
