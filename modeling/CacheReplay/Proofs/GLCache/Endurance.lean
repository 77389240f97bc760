import CacheReplay.Proofs.GLCache.Bookkeeping
import CacheReplay.Proofs.GLCache.Rows

set_option autoImplicit false

namespace CacheReplay.GLCache
open Regression

/-- Requests, object sizes and the overhead of an object are less than this. -/
def traceBound : Nat := 0x80000000

/-- A request in range, or an eviction. -/
def Endured : Operation → Prop
  | .get req => req.Dated ∧ req.Timely ∧ req.size < traceBound
  | .evict _ => True
  | .check _ _ | .remove _ => False

instance : DecidablePred Endured
  | .get _ => inferInstanceAs (Decidable (_ ∧ _ ∧ _))
  | .evict _ => inferInstanceAs (Decidable True)
  | .check _ _ | .remove _ => inferInstanceAs (Decidable False)

/-- A cache and a trace small enough for every counter, index and time to stay in its range. -/
def Bearable (capacity overhead : Nat) (config : Config) (ops : List Operation) : Prop :=
  capacity < traceBound ∧ overhead < traceBound ∧ config.segmentSize < countBound ∧
    (config.signal.trained = true → config.retrainInterval + 1 < timeBound) ∧
    ops.length < traceBound ∧ ∀ op ∈ ops, Endured op

instance (capacity overhead : Nat) (config : Config) (ops : List Operation) :
    Decidable (Bearable capacity overhead config ops) :=
  inferInstanceAs (Decidable (_ ∧ _ ∧ _ ∧ _ ∧ _ ∧ _))

namespace Cache
variable {μ : Type}

section evict
variable {c : Cache μ} {n : Nat}

structure Trimmed (n : Nat) (c d : Cache μ) : Prop where
  contents : d.contents.Within n
  segments : d.contents.table.nextId + d.contents.table.inUse ≤
    c.contents.table.nextId + c.contents.table.inUse
  load : d.load = c.load
  notice : ∀ last, d.lastNotice = some last → InEra last

theorem yields_countEvicted {tally : Tally} {before after : Account} (le : after.occupied ≤ before.occupied)
    (word : IsWord (tally.evictedBytes + before.occupied)) (objects : Nat) :
    Yields (countEvicted tally before after objects) fun _ => True := by
  unfold countEvicted
  rw [subWord_of_le le, ok_bind, addWord_of_isWord (word.of_le (by omega)), ok_bind]
  exact yields_pure trivial

theorem yields_noticed {time : Int} (era : InEra time)
    (notice : ∀ last, c.lastNotice = some last → InEra last) :
    Yields (c.noticed time) fun o => ∀ last, o = some last → InEra last := by
  unfold noticed
  split
  · refine yields_pure fun last e => ?_
    cases e
    exact era
  · rename_i last given
    rw [subTime_of_inEra era (notice last given), ok_bind]
    refine yields_pure fun later e => ?_
    cases e
    split
    · exact era
    · exact notice last given

variable (h : c.Sound) (within : c.contents.Within n) (dated : c.moment.Dated)
  (notice : ∀ last, c.lastNotice = some last → InEra last)
  (word : IsWord (c.tally.evictedBytes + c.account.occupied))
include h within dated notice word

theorem yields_evictSingle {i : Slot}
    (legal : (Choice.single i).Legal c.contents.table.chainOf c.config.mergeCount) :
    Yields (c.evictSingle i) fun d => Trimmed n c d := by
  obtain ⟨k, hk, hi⟩ := legal
  unfold evictSingle
  apply yields_bind (yields_noticed dated.time notice)
  intro lastNotice given
  apply yields_bind (h.contents.yields_evictSegment_within within dated hk hi)
  intro q evicted
  obtain ⟨⟨evicts, fewer⟩, left, nextId⟩ := evicted
  apply yields_bind (yields_countEvicted evicts.sheds.occupied word q.1)
  intro tally _
  refine yields_pure ⟨left, ?_, rfl, given⟩
  dsimp only
  omega

variable (lt : n + 1 < countBound) (few : c.contents.table.nextId + 1 < countBound)
include lt few

theorem yields_evictRun {run : List Slot}
    (legal : (Choice.merge run).Legal c.contents.table.chainOf c.config.mergeCount) :
    Yields (c.evictRun run) fun d => Trimmed n c d := by
  obtain ⟨-, two, pos, -⟩ := Config.bounds_of_validate h.accepted
  have live : ∀ i ∈ run, ∃ g, c.contents.table.get? i = some g ∧ g.bucket ≠ quarantine := by
    intro i hi
    obtain ⟨-, -, k, hk, mem⟩ := legal
    obtain ⟨g, hg, at_k⟩ := (h.contents.strung.mem_iff k i).mp (mem i hi).1
    exact ⟨g, hg, by rw [at_k]; exact Nat.ne_of_lt hk⟩
  unfold evictRun
  apply yields_bind (h.contents.yields_scoresOf within dated c.config.objectScore live)
  intro exact _
  generalize (if c.config.jitter = true then disturb exact c.random else (exact, c.random)) = p
  obtain ⟨scores, random⟩ := p
  dsimp only
  apply yields_bind (yields_cutoff scores pos)
  intro bar _
  apply yields_bind (h.contents.yields_merge within dated few legal two lt scores bar)
  intro q merged
  obtain ⟨⟨evicts, fewer⟩, left, nextId⟩ := merged
  apply yields_bind (yields_countEvicted evicts.sheds.occupied word q.1.dropped)
  intro tally _
  refine yields_pure ⟨left, ?_, rfl, notice⟩
  dsimp only
  omega

theorem yields_evict [Regressor μ] : Yields c.evict fun p => Trimmed n c p.2 := by
  have two := (Config.bounds_of_validate h.accepted).2.1
  unfold evict
  apply yields_bind ((yields_choose h.contents within dated).and (c.settles_choose (t := .any)
    h.contents.strung h.contents.ranked h.turn (Nat.lt_of_succ_lt two)))
  intro p chose
  obtain ⟨choice, d⟩ := p
  obtain ⟨-, chooser, rfl, fit, legal, -⟩ := chose
  have sound := h.withChooser fit
  have carried := fit.settled.carried
  have left : (c.withChooser chooser).contents.Within n := ⟨within.table.carried carried, within.live⟩
  have inUse : (c.withChooser chooser).contents.table.inUse = c.contents.table.inUse :=
    fit.settled.inUse_eq h.contents.strung
  have nextId : (c.withChooser chooser).contents.table.nextId = c.contents.table.nextId := carried.nextId
  have chains : (c.withChooser chooser).contents.table.chainOf = c.contents.table.chainOf :=
    funext fun k => fit.settled.strung.chainOf_eq k
  have trimmed : ∀ d, Trimmed n (c.withChooser chooser) d → Trimmed n c d := fun d done =>
    ⟨done.contents, by have := done.segments; omega, done.load, done.notice⟩
  cases choice with
  | none => exact yields_pure (trimmed _ ⟨left, Nat.le_refl _, rfl, notice⟩)
  | some choice =>
    have allowed := legal choice rfl
    rw [← chains] at allowed
    cases choice with
    | merge run =>
      apply yields_bind (yields_evictRun sound left dated notice word lt (by rw [nextId]; exact few) allowed)
      intro d done
      exact yields_pure (trimmed d done)
    | single i =>
      apply yields_bind (yields_evictSingle sound left dated notice word allowed)
      intro d done
      exact yields_pure (trimmed d done)

end evict

/-- What a cache was built with is in range, and so is what its model was made from. -/
structure Modest (fine : μ → Prop) (c : Cache μ) : Prop where
  capacity : c.account.capacity < traceBound
  overhead : c.account.overhead < traceBound
  segmentSize : c.config.segmentSize < countBound
  due : c.config.signal.trained = true → IsTime (c.config.retrainInterval + 1)
  model : fine c.learner.model

theorem Modest.of_same {fine : μ → Prop} {c d : Cache μ} (h : c.Modest fine)
    (terms : c.account.SameTerms d.account) (config : d.config = c.config) (model : fine d.learner.model) :
    d.Modest fine where
  capacity := terms.capacity ▸ h.capacity
  overhead := terms.overhead ▸ h.overhead
  segmentSize := config ▸ h.segmentSize
  due := config ▸ h.due
  model := model

/-- The counters of a cache that has seen some hits and opened some segments for objects. -/
structure Ranged (fine : μ → Prop) (hits opens : Nat) (c : Cache μ) : Prop where
  modest : c.Modest fine
  contents : c.contents.Within hits
  clock : InEra c.account.clock
  requests : c.account.requests ≤ hits
  since : c.load.since.Dated
  notice : ∀ last, c.lastNotice = some last → InEra last
  training : InEra c.learner.lastTraining
  /-- A segment counts when it is made and again while it is live. -/
  segments : c.contents.table.nextId + c.contents.table.inUse ≤ 2 * opens
  samples : c.learner.samples.size ≤ 2 * opens
  objects : c.account.objects ≤ opens
  bytes : c.tally.evictedBytes + c.account.occupied ≤ opens * countBound

namespace Ranged
variable {fine : μ → Prop} {c : Cache μ} {hits opens n : Nat}

theorem dated (r : c.Ranged fine hits opens) (lt : hits < traceBound) : c.moment.Dated where
  time := r.clock
  now := by
    have requests := r.requests
    apply InEra.timeOfWord
    unfold traceBound at lt
    unfold InEra eraEnd
    omega

theorem mono (r : c.Ranged fine hits opens) {more : Nat} (le : opens ≤ more) : c.Ranged fine hits more :=
  { r with
    segments := Nat.le_trans r.segments (Nat.mul_le_mul_left 2 le)
    samples := Nat.le_trans r.samples (Nat.mul_le_mul_left 2 le)
    objects := Nat.le_trans r.objects le
    bytes := Nat.le_trans r.bytes (Nat.mul_le_mul_right countBound le) }

theorem later (r : c.Ranged fine hits opens) {more : Nat} (le : hits ≤ more) : c.Ranged fine more opens :=
  { r with
    contents := ⟨r.contents.table.mono le, r.contents.live.mono le⟩
    requests := Nat.le_trans r.requests le }

/-- Without a request or a turn of the learner, what remains to be counted are segments, objects and bytes. -/
theorem of_terms (r : c.Ranged fine hits opens) {d : Cache μ} {more : Nat} (le : opens ≤ more)
    (terms : c.account.SameTerms d.account) {rows : Nat → Prop} (relabelled : c.Relabelled rows d)
    (contents : d.contents.Within hits) (load : d.load = c.load)
    (notice : ∀ last, d.lastNotice = some last → InEra last)
    (segments : d.contents.table.nextId + d.contents.table.inUse ≤ 2 * more)
    (objects : d.account.objects ≤ more) (bytes : d.tally.evictedBytes + d.account.occupied ≤ more * countBound) :
    d.Ranged fine hits more := by
  have size := relabelled.learner.size
  obtain ⟨samples, learner⟩ := relabelled.learner.same
  refine ⟨r.modest.of_same terms relabelled.config (by rw [learner]; exact r.modest.model), contents, ?_, ?_,
    by rw [load]; exact r.since, notice, by rw [learner]; exact r.training, segments, ?_, objects, bytes⟩
  · rw [terms.clock]
    exact r.clock
  · rw [terms.requests]
    exact r.requests
  · rw [size]
    exact Nat.le_trans r.samples (Nat.mul_le_mul_left 2 le)

theorem sampling (r : c.Ranged fine hits opens) (h : c.Sound) (lt : hits < traceBound)
    (blank : c.learner.samples.size = 0) {picked : List (Slot × Sample)} (pick : c.Picked picked) :
    (c.sampling picked).Ranged fine hits opens := by
  have stays := stays_sampling r.contents.table (r.dated lt).now picked
  have sub := (pick.sub.trans c.contents.table.candidates_sublist).length_le
  rw [List.length_map, ← h.contents.strung.inUse_eq] at sub
  have segments := r.segments
  refine ⟨r.modest.of_same (.refl _) rfl r.modest.model, ⟨stays.within, r.contents.live⟩, r.clock,
    r.requests, r.since, r.notice, r.training, ?_, ?_, r.objects, r.bytes⟩
  · rw [stays.nextId, stays.inUse]
    exact segments
  · have size : (c.sampling picked).learner.samples.size = picked.length := by
      rw [Cache.sampling, Samples.size_pushAll, blank, Nat.zero_add, List.length_map]
    omega

/-- A training run takes away segments that are in no live bucket. -/
theorem trained (r : c.Ranged fine hits opens) (h : c.Sound) {m : μ} (model : fine m)
    (result : Except FitError Unit) : Ranged fine hits opens { c with
      learner := c.learner.trained result m c.account.clock
      contents := c.contents.unquarantined } := by
  have cleared := h.contents.unquarantined
  have account : c.contents.unquarantined.account = c.account := cleared.account
  have table : c.contents.unquarantined.table.Within hits := by
    intro i s hs
    rw [cleared.nextId]
    exact r.contents.table i s (cleared.old i s hs)
  have live : LiveWithin hits c.contents.unquarantined.store := fun i u hu =>
    r.contents.live i u ((cleared.live i).symm.trans hu)
  have learner : (c.learner.trained result m c.account.clock).model = m ∧
      (c.learner.trained result m c.account.clock).lastTraining = c.account.clock ∧
      (c.learner.trained result m c.account.clock).samples.size = 0 := by
    cases result with
    | ok _ => exact ⟨rfl, rfl, rfl⟩
    | error _ => exact ⟨rfl, rfl, rfl⟩
  obtain ⟨same, training, samples⟩ := learner
  have segments : c.contents.unquarantined.table.nextId + c.contents.unquarantined.table.inUse ≤
      2 * opens := by
    rw [cleared.nextId, cleared.inUse]
    exact r.segments
  generalize c.contents.unquarantined = e at account table live segments ⊢
  obtain ⟨b, store, a⟩ := e
  dsimp only at account
  subst account
  refine ⟨r.modest.of_same (.refl _) rfl (by rw [same]; exact model), ⟨table, live⟩, r.clock, r.requests,
    r.since, r.notice, ?_, segments, ?_, r.objects, r.bytes⟩
  · rw [training]
    exact r.clock
  · rw [samples]
    exact Nat.zero_le _

theorem yields_check (r : c.Ranged fine n n) (h : c.Sound) {req : Request} (times : req.Dated)
    (lt : n + 1 < traceBound) :
    Yields (Cache.check { c with contents := { c.contents with account := c.account.begun req } } req true)
      fun p => p.2.Ranged fine (n + 1) n := by
  have begun := h.begun req
  have now : InEra (timeOfWord (c.account.requests + 1)) := by
    have requests := r.requests
    apply InEra.timeOfWord
    unfold traceBound at lt
    unfold InEra eraEnd
    omega
  have few : n + 1 < countBound := Nat.lt_trans lt (by decide)
  apply ((Cache.yields_check (c := { c with contents := { c.contents with account := c.account.begun req } })
    begun ⟨r.contents.table, r.contents.live⟩ ⟨times.time, now⟩ few r.modest.segmentSize times).and
    (begun.settles_check (t := .any) req true)).mono
  intro p looked
  obtain ⟨⟨noted, live⟩, -, account, tally, -, -, -, config, -, relabelled⟩ := looked
  have size := relabelled.size
  obtain ⟨samples, learner⟩ := relabelled.same
  clear relabelled
  have table := noted.table
  have load := noted.load
  have lastNotice := noted.lastNotice
  obtain ⟨outcome, ⟨_, ⟨a, store, _⟩, turn, random, _, _, _, _⟩⟩ := p
  dsimp only at account tally config learner size table load lastNotice live
  cases account
  cases tally
  cases config
  cases learner
  cases load
  cases lastNotice
  refine ⟨⟨r.modest.capacity, r.modest.overhead, r.modest.segmentSize, r.modest.due, r.modest.model⟩,
    ⟨table.within, live⟩, times.time, Nat.succ_le_succ r.requests, r.since, r.notice, r.training, ?_, ?_,
    r.objects, r.bytes⟩
  · rw [table.nextId, table.inUse]
    exact r.segments
  · exact Nat.le_trans (Nat.le_of_eq size) r.samples

theorem yields_evict [Regressor μ] (r : c.Ranged fine hits opens) (h : c.Sound) (lt : hits < traceBound)
    (few : opens + 1 < traceBound) : Yields c.evict fun p => p.2.Ranged fine hits opens := by
  have segments := r.segments
  have bytes := r.bytes
  have word : IsWord (c.tally.evictedBytes + c.account.occupied) := by
    have most : opens * countBound ≤ traceBound * countBound := Nat.mul_le_mul_right _ (by omega)
    exact Nat.lt_of_le_of_lt (Nat.le_trans bytes most) (by decide)
  have next : c.contents.table.nextId + 1 < countBound := by
    unfold traceBound at few
    unfold countBound
    omega
  have more : hits + 1 < countBound := Nat.lt_of_le_of_lt (Nat.succ_le_of_lt lt) (by decide)
  apply ((Cache.yields_evict h r.contents (r.dated lt) r.notice word more next).and
    (h.settles_evict (t := .any))).mono
  intro p evicted
  obtain ⟨trimmed, shed, -⟩ := evicted
  obtain ⟨ps, gone, evicts⟩ := shed.evicts
  have terms : c.account.SameTerms p.2.account := evicts.sheds.terms
  have count : gone + p.2.account.objects = c.account.objects := evicts.count
  have objects := r.objects
  have sum := shed.bytes
  exact r.of_terms (Nat.le_refl _) terms (shed.relabelled fun _ => False) trimmed.contents trimmed.load
    trimmed.notice (Nat.le_trans trimmed.segments segments) (by omega) (by omega)

theorem yields_insert (r : c.Ranged fine hits n) (h : c.Sound) {req : Request} (times : req.Dated)
    (timely : req.Timely) (size : req.size < traceBound) (lt : hits < traceBound)
    (few : n + 1 < traceBound) (missed : ¬c.contents.store.caches req.id = true)
    (room : c.account.occupied + (req.size + c.account.overhead) ≤ c.account.capacity) :
    Yields (c.insert req) fun p => p.2.Ranged fine hits (n + 1) := by
  have segments := r.segments
  have objects := r.objects
  have bytes := r.bytes
  have small : req.size + c.account.overhead ≤ countBound := by
    have overhead := r.modest.overhead
    unfold traceBound at size overhead
    unfold countBound
    omega
  have capacity : c.account.capacity < wordBound := Nat.lt_trans r.modest.capacity (by decide)
  have next : IsWord (c.contents.table.nextId + 1) := by
    unfold traceBound at few
    unfold IsWord wordBound
    omega
  have count : IsWord (c.account.objects + 1) :=
    Nat.lt_of_le_of_lt (Nat.succ_le_succ objects) (Nat.lt_trans few (by decide))
  apply ((Cache.yields_insert h r.contents (r.dated lt) next times timely missed
    (Nat.lt_of_le_of_lt room capacity) count).and (h.settles_insert (t := .any) missed room)).mono
  intro p inserted
  obtain ⟨⟨contents, more, load, lastNotice⟩, -, account, tally, -, -, relabelled⟩ := inserted
  have terms : c.account.SameTerms p.2.account := by
    rw [account]
    exact c.account.sameTerms_charged req.size
  refine r.of_terms (Nat.le_succ n) terms relabelled contents load (by rw [lastNotice]; exact r.notice) (by omega)
    ?_ ?_
  · rw [account]
    exact Nat.succ_le_succ objects
  · rw [tally, account, Nat.succ_mul]
    change c.tally.evictedBytes + (c.account.occupied + (req.size + c.account.overhead)) ≤ _
    omega

variable [Regressor μ]
  (fits : ∀ (m : μ) (d : TrainingData), fine m → d.Numbered → Yields (Regressor.fit m d) fun p => fine p.2)
include fits

theorem yields_learn (r : c.Ranged fine hits opens) (h : c.Sound) {maxRows : Nat}
    (tabulated : c.Tabulated maxRows) (lt : hits < traceBound) (few : opens < traceBound)
    (signal : c.config.signal.trained = true) : Yields c.learn fun d => d.Ranged fine hits opens := by
  have ready : ∀ b : Cache μ, Prepared c b → b.Ranged fine hits opens →
      Yields b.snapshot fun d => d.Ranged fine hits opens := by
    intro b prepared ranged
    have sound := (prepared.settled h).sound
    obtain ⟨blank, -⟩ := tabulated.prepared h prepared
    apply ((Cache.yields_snapshot sound.contents ranged.contents (ranged.dated lt)).and
      (settles_snapshot (t := .any) b)).mono
    rintro d ⟨-, picked, pick, rfl⟩
    exact ranged.sampling sound lt blank pick
  have word : IsWord (c.learner.samples.size * featureCount) := by
    have rows := r.samples
    have most : c.learner.samples.size * featureCount ≤ 2 * traceBound * featureCount :=
      Nat.mul_le_mul_right _ (by omega)
    exact Nat.lt_of_le_of_lt most (by decide)
  unfold learn
  apply yields_bind (c.learner.yields_nextStep r.clock r.training (r.modest.due signal))
  intro step next
  cases step with
  | wait => exact yields_pure r
  | firstSnapshot =>
    exact ready _ (.first (next.1 rfl)) ⟨r.modest.of_same (.refl _) rfl r.modest.model, r.contents, r.clock,
      r.requests, r.since, r.notice, r.clock, r.segments, r.samples, r.objects, r.bytes⟩
  | retrain =>
    apply yields_bind (c.learner.yields_train fits h.contents c.account.clock r.modest.model h.aligned word)
    rintro q ⟨result, m, fit, model, rfl⟩
    exact ready _ (.trained (next.2 rfl) fit) (r.trained h model result)

theorem yields_settle (r : c.Ranged fine hits opens) (h : c.Sound) {maxRows : Nat}
    (tabulated : c.Tabulated maxRows) (lt : hits < traceBound) (few : opens < traceBound) (hit : Bool) :
    Yields (c.settle hit) fun d => d.Ranged fine hits opens := by
  have loaded : ∀ e : Cache μ, e.Ranged fine hits opens → Yields (do
      let load ← e.load.record hit e.moment
      pure { e with load } : Checked (Cache μ)) fun d => d.Ranged fine hits opens := by
    intro e ranged
    apply yields_bind (e.load.yields_record hit ranged.since (ranged.dated lt))
    intro load since
    exact yields_pure ⟨ranged.modest.of_same (.refl _) rfl ranged.modest.model, ranged.contents, ranged.clock,
      ranged.requests, since, ranged.notice, ranged.training, ranged.segments, ranged.samples, ranged.objects,
      ranged.bytes⟩
  unfold settle
  split
  · rename_i signal
    exact yields_bind (r.yields_learn fits h tabulated lt few signal) loaded
  · exact loaded c r

open EvictionPolicy in
theorem yields_serve (r : c.Ranged fine n n) (h : c.Sound) {maxRows : Nat} (tabulated : c.Tabulated maxRows)
    {req : Request} (times : req.Dated) (timely : req.Timely) (size : req.size < traceBound)
    (lt : n + 1 < traceBound) : Yields (serve c req) fun p =>
      p.2.Ranged fine (n + 1) (n + 1) ∧ p.2.Sound ∧ p.2.Tabulated maxRows := by
  have d := (dependable_ofModel (μ := μ)).keeping (keeps_tabulated c maxRows)
  have start : c.Sound ∧ c.Tabulated maxRows ∧ c.Retains c := ⟨h, tabulated, .refl c⟩
  have count : IsWord (c.account.requests + 1) :=
    Nat.lt_of_le_of_lt (Nat.succ_le_succ r.requests) (Nat.lt_trans lt (by decide))
  have answered : Yields (answer c req) fun p => p.2.Ranged fine (n + 1) (n + 1) := by
    refine d.yields_answer (fun b => b.Ranged fine (n + 1) n) (fun b hb ranged => ?_)
      (fun b hb ranged => ranged.yields_evict hb.1 lt lt) (fun b ranged => ranged.mono (Nat.le_succ n))
      (fun b hb ranged missed room => ranged.yields_insert hb.1 times timely size lt lt missed room)
      start count (r.yields_check h times lt)
    have occupied := hb.1.contents.ledger.within
    have capacity := ranged.modest.capacity
    have overhead := ranged.modest.overhead
    change IsWord (b.account.occupied + (req.size + b.account.overhead))
    unfold account traceBound at *
    unfold IsWord wordBound
    omega
  rw [serve_eq]
  apply yields_bind (answered.and (d.settles_answer c req start))
  intro p done
  obtain ⟨ranged, ⟨sound, rows, later⟩, -⟩ := done
  apply yields_bind ((ranged.yields_settle fits sound rows lt lt p.1).and
    (d.settle p.2 p.1 ⟨sound, rows, later⟩))
  intro e settled
  obtain ⟨ranged', ⟨sound', rows', -⟩, -⟩ := settled
  exact yields_pure ⟨ranged', sound', rows'⟩

open EvictionPolicy in
theorem yields_perform (r : c.Ranged fine n n) (h : c.Sound) {maxRows : Nat} (tabulated : c.Tabulated maxRows)
    {op : Operation} (endured : Endured op) (lt : n + 1 < traceBound) : Yields (perform c op) fun d =>
      d.Ranged fine (n + 1) (n + 1) ∧ d.Sound ∧ d.Tabulated maxRows := by
  have kept := (dependable_ofModel (μ := μ)).keeping (keeps_tabulated c maxRows)
  have ranged : Yields (perform c op) fun d => d.Ranged fine (n + 1) (n + 1) := by
    cases op with
    | get req =>
      obtain ⟨times, timely, size⟩ := endured
      exact yields_map ((r.yields_serve fits h tabulated times timely size lt).mono fun p served => served.1)
    | evict req =>
      have evicted := r.yields_evict h (Nat.lt_of_succ_lt lt) lt
      exact yields_map (evicted.mono fun p done => (done.later (Nat.le_succ n)).mono (Nat.le_succ n))
    | check => exact endured.elim
    | remove => exact endured.elim
  refine (ranged.and (kept.settles_perform c op ⟨h, tabulated, .refl c⟩)).mono fun d done => ?_
  exact ⟨done.1, done.2.1, done.2.2.1⟩

open EvictionPolicy in
theorem yields_run (r : c.Ranged fine n n) (h : c.Sound) {maxRows : Nat} (tabulated : c.Tabulated maxRows)
    {ops : List Operation} (lt : n + ops.length < traceBound) (endured : ∀ op ∈ ops, Endured op) :
    Yields (run c ops) fun d => d.Ranged fine (n + ops.length) (n + ops.length) := by
  induction ops generalizing c n with
  | nil => exact yields_pure r
  | cons op ops ih =>
    rw [List.length_cons] at lt
    have total : n + (ops.length + 1) = n + 1 + ops.length := by omega
    rw [run, List.foldlM_cons, List.length_cons, total]
    apply yields_bind (r.yields_perform fits h tabulated (endured op List.mem_cons_self) (by omega))
    intro d performed
    obtain ⟨ranged, sound, rows⟩ := performed
    exact ih ranged sound rows (by omega) fun q hq => endured q (List.mem_cons_of_mem op hq)

end Ranged

theorem ranged_ofConfig {fine : μ → Prop} {capacity overhead : Nat} {config : Config} {model : μ}
    (small : capacity < traceBound) (light : overhead < traceBound) (segments : config.segmentSize < countBound)
    (due : config.signal.trained = true → IsTime (config.retrainInterval + 1)) (fit : fine model) :
    (ofConfig capacity overhead config model).Ranged fine 0 0 where
  modest := ⟨small, light, segments, due, fit⟩
  contents := by
    refine ⟨Table.within_empty 0 config.segmentSize, fun i r hr => ?_⟩
    have none : (Store.empty : Store ObjectTag).live? i = none := Store.live?_of_none (Arena.get?_empty i)
    rw [show (ofConfig capacity overhead config model).contents.store.live? i = _ from none] at hr
    cases hr
  clock := inEra_zero
  requests := Nat.le_refl 0
  since := ⟨inEra_zero, inEra_zero⟩
  notice := nofun
  training := inEra_zero
  segments := Nat.le_refl 0
  samples := Nat.le_refl 0
  objects := Nat.le_refl 0
  bytes := Nat.le_refl 0

section ofConfig
open EvictionPolicy
variable {capacity overhead : Nat} {config : Config} {ops : List Operation}
  (accepted : config.validate = .ok ()) (bearable : Bearable capacity overhead config ops)
include accepted bearable

/-- Trees are fitted whatever rows a cache has for them, however they sort rows of the same key. -/
theorem yields_run_ofConfig (sorting : Sorting) :
    Yields (run (ofConfig capacity overhead config (Boosted.unfitted { Settings.defaults with sorting })) ops)
      fun c => c.Ranged (fun m => IsWord (2 * m.settings.minRows)) ops.length ops.length := by
  obtain ⟨small, light, segments, due, short, endured⟩ := bearable
  have pos := (Config.bounds_of_validate accepted).2.2.2
  have fits : ∀ (m : Boosted) (d : TrainingData), IsWord (2 * m.settings.minRows) → d.Numbered →
      Yields (Regressor.fit m d) fun p => IsWord (2 * p.2.settings.minRows) := fun m d doubled numbered =>
    (m.yields_fit numbered doubled).mono fun p same => by
      rw [same]
      exact doubled
  have doubled : IsWord (2 * 1) := by decide
  have start : (ofConfig capacity overhead config (Boosted.unfitted { Settings.defaults with sorting })).Ranged
      (fun m => IsWord (2 * m.settings.minRows)) 0 0 :=
    ranged_ofConfig small light segments (fun signal => ⟨by unfold timeBound; omega, due signal⟩) doubled
  have ran := start.yields_run fits (sound_ofConfig capacity overhead _ accepted)
    (.ofConfig capacity overhead config _) (by rwa [Nat.zero_add]) endured
  rwa [Nat.zero_add] at ran

theorem returns {t : Tolerance} {post : Cache Boosted → Prop}
    (settles : Settles t (run (ofConfig capacity overhead config (Boosted.unfitted .defaults)) ops) post) :
    Yields (run (ofConfig capacity overhead config (Boosted.unfitted .defaults)) ops) post :=
  ((yields_run_ofConfig accepted bearable .stable).and settles).mono fun _ done => done.2

theorem returns_watched {t : Tolerance} {η : Type} {o : Observer (Cache Boosted) η} {notes : η}
    {post : Watched o → Prop}
    (settles : Settles t
      (run (o.watch (ofConfig capacity overhead config (Boosted.unfitted .defaults)) notes) ops) post) :
    Yields (run (o.watch (ofConfig capacity overhead config (Boosted.unfitted .defaults)) notes) ops) post := by
  have answers := yields_run_ofConfig accepted bearable .stable
  exact ((answers.of_map (Watched.forget_run _ ops)).and settles).mono fun _ done => done.2

end ofConfig
end Cache

theorem Config.validate_of_parse {text : String} {config : Config} (h : parse text = .ok config) :
    config.validate = .ok () := by
  obtain ⟨p, -, h⟩ := bind_eq_ok_iff.mp h
  exact validate_of_ofParams h

namespace Cache
open EvictionPolicy

/--
No trace within these bounds can stop a cache whose configuration was accepted, be it by an overflow, an
index out of bounds or a broken expectation, and however its trees sort rows of the same key; but the
training interval of a trained signal needs a successor and no expiry may be out of range.
-/
theorem run_answers (text : String) {config : Config} (accepted : Config.parse text = .ok config)
    (segments : config.segmentSize < countBound)
    (due : config.signal.trained = true → config.retrainInterval + 1 < timeBound) {capacity overhead : Nat}
    (small : capacity < traceBound) (light : overhead < traceBound) {reqs : List Request}
    (short : reqs.length < traceBound) (sizes : ∀ req ∈ reqs, req.size < traceBound)
    (times : ∀ req ∈ reqs, req.Dated) (timely : ∀ req ∈ reqs, req.Timely) (sorting : Sorting) :
    ∃ c, run (ofConfig capacity overhead config (Boosted.unfitted { Settings.defaults with sorting }))
      (reqs.map .get) = .ok c := by
  have valid := Config.validate_of_parse accepted
  have endured : ∀ op ∈ reqs.map Operation.get, Endured op := by
    intro op hop
    obtain ⟨req, hr, rfl⟩ := List.mem_map.mp hop
    exact ⟨times req hr, timely req hr, sizes req hr⟩
  have brief : (reqs.map Operation.get).length < traceBound := by rwa [List.length_map]
  obtain ⟨c, ran, -⟩ := yields_run_ofConfig valid ⟨small, light, segments, due, brief, endured⟩ sorting
  exact ⟨c, ran⟩

theorem run_answers_interval : Config.parse "retrain-intvl=9223372036854775806,warmup-rtime=0" =
      .ok { Config.defaults with retrainInterval := 9223372036854775806, warmup := 0 } ∧
    ∃ c, run (ofConfig 10 1 { Config.defaults with retrainInterval := 9223372036854775806, warmup := 0 }
      (Boosted.unfitted .defaults)) ([⟨1, 3, 1, some 3, none⟩, ⟨2, 9, 2, none, some 5⟩, .ofId 1 3 3].map .get) =
        .ok c :=
  ⟨rfl, run_answers "retrain-intvl=9223372036854775806,warmup-rtime=0" rfl (by decide)
    (fun _ => by decide) (by decide) (by decide) (by decide) (by decide) (by decide) (by decide) .stable⟩

end Cache
end CacheReplay.GLCache
