import CacheReplay.Proofs.GLCache.Invariants
import CacheReplay.Proofs.Observation

set_option autoImplicit false

namespace CacheReplay.GLCache
open EvictionPolicy Regression

variable {μ : Type}

namespace Learner
variable {l : Learner μ} {time warmup interval : Int}

theorem nextStep_overflow (started : l.started = true) (late : warmup < time)
    (greatest : timeBound ≤ interval + 1) : l.nextStep time warmup interval = .error .overflow := by
  have none : addTime interval 1 = .error .overflow :=
    if_neg fun inside => Int.not_lt.mpr greatest inside.2
  unfold Learner.nextStep
  rw [if_neg (Int.not_le.mpr late), if_neg (by simp [started]), none]
  cases e : subTime time l.lastTraining with
  | ok elapsed => rfl
  | error f =>
    -- The time since the last run may leave its word first, by the same fault.
    unfold subTime at e
    split at e
    · cases e
    · cases e
      rfl

theorem nextStep_unstarted (unstarted : l.started = false) (late : warmup < time) :
    l.nextStep time warmup interval = .ok .firstSnapshot := by
  unfold Learner.nextStep
  rw [if_neg (Int.not_le.mpr late), if_pos (by simp [unstarted])]
  rfl

end Learner

namespace Cache
variable {c : Cache μ} {time : Int}

/-- After a request at a time. The first one past the warm-up starts the learner, and no other is served. -/
structure Began (time : Int) (c d : Cache μ) : Prop where
  sound : d.Sound
  config : d.config = c.config
  once : ¬(c.learner.started = true ∧ c.config.warmup < time)
  started : d.learner.started = (c.learner.started || decide (c.config.warmup < time))

section greatest
variable [Regressor μ] (h : c.Sound) (signal : c.config.signal.trained = true)
  (greatest : timeBound ≤ c.config.retrainInterval + 1) {t : Tolerance}
include h

theorem Sound.settles_answer_started (req : Request) : Settles t (answer c req) fun p =>
    p.2.Sound ∧ p.2.account.clock = req.time ∧ p.2.config = c.config ∧
      p.2.learner.started = c.learner.started := by
  have same : ∀ {rows : Nat → Prop} {d e : Cache μ}, d.Relabelled rows e →
      d.config = c.config ∧ d.learner.started = c.learner.started →
      e.config = c.config ∧ e.learner.started = c.learner.started := by
    intro rows d e relabelled kept
    obtain ⟨samples, learner⟩ := relabelled.learner.same
    rw [learner]
    exact ⟨relabelled.config.trans kept.1, kept.2⟩
  have kept : Maintains t (fun (d : Cache μ) id => ¬d.contents.store.caches id = true) Sound
      fun d => d.config = c.config ∧ d.learner.started = c.learner.started :=
    { begun := fun _ _ _ kept => kept
      check := fun _ req update sound kept =>
        (sound.settles_check req update).mono fun _ looked => same looked.relabelled kept
      evict := fun _ _ sound kept =>
        sound.settles_evict.mono fun _ done => same (done.1.relabelled fun _ => False) kept
      insert := fun _ _ sound kept missed room =>
        (sound.settles_insert missed room).mono fun _ done => same done.relabelled kept }
  refine ((admissible.keeping kept).settles_answer c req ⟨h, rfl, rfl⟩).mono fun p answered => ?_
  obtain ⟨⟨sound, kept⟩, -, -, clock, -⟩ := answered
  exact ⟨sound, clock, kept⟩

include signal greatest

theorem Sound.settles_settle_began (hit : Bool) :
    Settles t (c.settle hit) fun d => Began c.account.clock c d := by
  have loaded : ∀ e : Cache μ, Began c.account.clock c e → Settles t (do
      let load ← e.load.record hit e.moment
      pure { e with load } : Checked (Cache μ)) fun d => Began c.account.clock c d :=
    fun e began => settles_bind (e.load.settles_record hit e.moment) fun load _ =>
      have sound := began.sound
      settles_pure ⟨⟨sound.contents, sound.turn, sound.accepted, sound.segmentSize, sound.aligned⟩,
        began.config, began.once, began.started⟩
  unfold settle learn
  rw [if_pos signal]
  dsimp only
  by_cases late : c.config.warmup < c.account.clock
  · cases started : c.learner.started with
    | true =>
      rw [Learner.nextStep_overflow started late greatest]
      exact t.overflow
    | false =>
      rw [Learner.nextStep_unstarted started late, ok_bind]
      refine settles_bind (settles_snapshot _) fun d taken => ?_
      obtain ⟨picked, pick, rfl⟩ := taken
      have ready := (Prepared.first started).settled h
      have settled := ready.trans (ready.sound.sampling pick)
      exact loaded _ ⟨settled.sound, settled.config, by simp [started], by simp [Cache.sampling, late]⟩
  · have wait : c.learner.nextStep c.account.clock c.config.warmup c.config.retrainInterval = .ok .wait :=
      if_pos (Int.not_lt.mp late)
    rw [wait, ok_bind]
    exact loaded c ⟨h, rfl, fun both => late both.2, by simp [late]⟩

theorem Sound.settles_serve_began (req : Request) :
    Settles t (serve c req) fun p => Began req.time c p.2 := by
  rw [serve_eq]
  refine settles_bind (h.settles_answer_started req) fun p answered => ?_
  obtain ⟨sound, clock, config, started⟩ := answered
  rw [← config] at signal greatest
  refine settles_bind (sound.settles_settle_began signal greatest p.1) fun d began => settles_pure ?_
  have once := began.once
  have starts := began.started
  rw [config, clock, started] at once starts
  exact ⟨began.sound, began.config.trans config, once, starts⟩

/-- Of the requests that are served, at most one comes after the warm-up, and none if the learner has started. -/
theorem Sound.settles_run_began (reqs : List Request) : Settles t (run c (reqs.map .get)) fun _ =>
    reqs.countP (fun req => c.config.warmup < req.time) + c.learner.started.toNat ≤ 1 := by
  induction reqs generalizing c with
  | nil => exact settles_pure (by simpa using c.learner.started.toNat_le)
  | cons req reqs ih =>
    have first : Settles t (Prod.snd <$> serve c req) (Began req.time c) :=
      settles_map (h.settles_serve_began signal greatest req)
    rw [List.map_cons, run, List.foldlM_cons, perform]
    apply settles_bind first
    intro d began
    have config := began.config
    rw [← config] at signal greatest
    refine (ih began.sound signal greatest).mono fun _ few => ?_
    rw [config, began.started] at few
    rw [List.countP_cons]
    by_cases late : c.config.warmup < req.time
    · have unstarted : c.learner.started = false := by simpa [late] using began.once
      rw [decide_eq_true late, Bool.or_true, Bool.toNat_true] at few
      rw [if_pos (decide_eq_true late), unstarted, Bool.toNat_false]
      exact few
    · rw [decide_eq_false late, Bool.or_false] at few
      rw [if_neg (by simpa using late)]
      exact few

end greatest

/-- With the greatest training interval, no trace is served that has two requests after the warm-up. -/
theorem run_overflow [Regressor μ] {config : Config} (accepted : config.validate = .ok ())
    (signal : config.signal.trained = true) (greatest : timeBound ≤ config.retrainInterval + 1)
    (capacity overhead : Nat) (model : μ) {reqs : List Request}
    (late : 1 < reqs.countP fun req => config.warmup < req.time) :
    run (ofConfig capacity overhead config model) (reqs.map .get) = .error .overflow := by
  have served := (sound_ofConfig capacity overhead model accepted).settles_run_began (t := .arithmetic)
    signal greatest reqs
  cases ran : run (ofConfig capacity overhead config model) (reqs.map .get) with
  | ok c =>
    rw [ran] at served
    have few : reqs.countP (fun req => config.warmup < req.time) + 0 ≤ 1 := served
    omega
  | error f =>
    rw [ran] at served
    rw [show f = .overflow from served]

theorem run_overflow_interval : Config.parse "type=learned,warmup-rtime=0,retrain-intvl=9223372036854775807" =
      .ok { Config.defaults with signal := .learned, retrainInterval := 9223372036854775807, warmup := 0 } ∧
    run (ofConfig 10 0
      { Config.defaults with signal := .learned, retrainInterval := 9223372036854775807, warmup := 0 }
      (Boosted.unfitted .defaults)) ([.ofId 1 1 1, .ofId 1 1 2].map .get) = .error .overflow :=
  ⟨rfl, run_overflow rfl rfl (by decide) 10 0 _ (by decide)⟩

end Cache
end CacheReplay.GLCache
