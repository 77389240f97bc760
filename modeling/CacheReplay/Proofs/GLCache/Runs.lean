import CacheReplay.Proofs.GLCache.Endurance

set_option autoImplicit false

namespace CacheReplay.GLCache.Cache
open Regression EvictionPolicy
variable {μ : Type} [Regressor μ]

variable {config : Config} (capacity overhead : Nat) (model : μ)

/-- Every run passes its audit and keeps everything coherent. -/
theorem run_coherent (accepted : config.validate = .ok ()) (ops : List Operation) :
    Settles (.ofModel μ) (run (ofConfig capacity overhead config model) ops) fun c =>
      EvictionPolicy.audit c = pure () ∧ c.contents.Coherent :=
  (dependable_ofModel.settles_run _ ops (sound_ofConfig capacity overhead model accepted)).mono
    fun _ h => ⟨h.contents.audit_eq, h.contents.coherent⟩

theorem run_coherent_defaults : Config.defaults.validate = .ok () ∧
    Yields (run (ofConfig 1000 8 .defaults (Boosted.unfitted .defaults))
      [.get (.ofId 1 10 0), .get (.ofId 2 20 1), .get (.ofId 1 10 2), .evict (.ofId 3 5 3)]) fun c =>
        EvictionPolicy.audit c = pure () ∧ c.contents.Coherent :=
  ⟨rfl, returns rfl (by decide) (run_coherent 1000 8 _ rfl _)⟩

/-- Every choice that a run may make is legal, also while it makes room for an object. -/
theorem run_selects (accepted : config.validate = .ok ()) (ops : List Operation) :
    Settles (.ofModel μ) (run (ofConfig capacity overhead config model) ops) fun c =>
      c.Selects ∧ ∀ (req : Request) (evictions : Nat),
        Settles (.ofModel μ) (makingRoom c req evictions) fun d => d.Selects := by
  refine (dependable_ofModel.settles_run _ ops (sound_ofConfig capacity overhead model accepted)).mono
    fun c h => ⟨h.selects, fun req evictions => ?_⟩
  exact (dependable_ofModel.settles_makingRoom c req evictions h).mono fun d hd => hd.selects

theorem run_selects_ranked :
    Config.validate { Config.defaults with selection := some .learned, consecutive := false } = .ok () ∧
    Yields (run (ofConfig 40 0
      { Config.defaults with selection := some .learned, consecutive := false }
      (Boosted.unfitted .defaults)) [.get (.ofId 1 10 0), .get (.ofId 2 20 1)]) fun c =>
        c.Selects ∧ ∀ (req : Request) (evictions : Nat),
          Settles (.ofModel Boosted) (makingRoom c req evictions) fun d => d.Selects :=
  ⟨rfl, returns rfl (by decide) (run_selects 40 0 _ rfl _)⟩

/-- No run leaks ghosts: each has its owner, and a training run, also one after a request, ends them all. -/
theorem run_trainsClean (accepted : config.validate = .ok ()) (ops : List Operation) :
    Settles (.ofModel μ) (run (ofConfig capacity overhead config model) ops) fun c =>
      c.contents.GhostsOwned ∧ c.contents.TrainsClean μ ∧ ∀ req : Request,
        Settles (.ofModel μ) (answer c req) fun p =>
          p.2.contents.GhostsOwned ∧ p.2.contents.TrainsClean μ := by
  refine (dependable_ofModel.settles_run _ ops (sound_ofConfig capacity overhead model accepted)).mono
    fun c h => ⟨h.contents.ghostsOwned, h.contents.trainsClean, fun req => ?_⟩
  refine (dependable_ofModel.settles_answer c req h).mono fun p answered => ?_
  exact ⟨answered.1.contents.ghostsOwned, answered.1.contents.trainsClean⟩

theorem run_trainsClean_sampled :
    Config.validate { Config.defaults with segmentSize := 4, retain := 4, warmup := 0, maxRows := 10 } =
      .ok () ∧
    Yields (run (ofConfig 10 0
      { Config.defaults with segmentSize := 4, retain := 4, warmup := 0, maxRows := 10 }
      (Boosted.unfitted .defaults)) [.get (.ofId 1 1 1), .get (.ofId 2 1 172810)]) fun c =>
        c.contents.GhostsOwned ∧ c.contents.TrainsClean Boosted ∧ ∀ req : Request,
          Settles (.ofModel Boosted) (answer c req) fun p =>
            p.2.contents.GhostsOwned ∧ p.2.contents.TrainsClean Boosted :=
  ⟨rfl, returns rfl (by decide) (run_trainsClean 10 0 _ rfl _)⟩

/--
Whatever a run reaches, also while it answers a request: each sampled segment has a row for itself, where a
hit that is credited to it changes its label and no other, until the next training run gives it up, which
cuts every row out of the features.
-/
theorem run_tabulates (accepted : config.validate = .ok ()) (ops : List Operation) :
    Settles (.ofModel μ) (run (ofConfig capacity overhead config model) ops) fun c =>
      (c.Tabulated config.maxRows ∧ Settles .arithmetic c.learner.prepare fun _ => True) ∧
      c.CreditsOwnRows ∧ (∀ req : Request, (withAccount c (c.account.begun req)).CreditsOwnRows) ∧
      (∀ req : Request, Settles (.ofModel μ) (answer c req) fun p =>
        (p.2.Tabulated config.maxRows ∧ Settles .arithmetic p.2.learner.prepare fun _ => True) ∧
          c.Retains p.2) ∧
      ∀ op : Operation, Settles (.ofModel μ) (perform c op) fun d => c.Retains d := by
  have kept := fun c : Cache μ => (dependable_ofModel (μ := μ)).keeping
    (keeps_tabulated c config.maxRows)
  have start := sound_ofConfig capacity overhead model accepted
  refine ((kept (ofConfig capacity overhead config model)).settles_run _ ops
    ⟨start, .ofConfig capacity overhead config model, .refl _⟩).mono ?_
  rintro c ⟨sound, tabulated, -⟩
  have here : c.Sound ∧ c.Tabulated config.maxRows ∧ c.Retains c := ⟨sound, tabulated, .refl c⟩
  refine ⟨⟨tabulated, c.learner.settles_prepare tabulated.aligned⟩,
    sound.creditsOwnRows tabulated.unshared, fun req => (sound.begun req).creditsOwnRows tabulated.unshared,
    fun req => ?_, fun op => ?_⟩
  · refine ((kept c).settles_answer c req here).mono fun p answered => ?_
    obtain ⟨⟨-, tabulated, retains⟩, -⟩ := answered
    exact ⟨⟨tabulated, p.2.learner.settles_prepare tabulated.aligned⟩, retains⟩
  · exact ((kept c).settles_perform c op here).mono fun d done => done.2.2

theorem run_tabulates_hit :
    Config.validate { Config.defaults with segmentSize := 4, retain := 4, warmup := 0, maxRows := 10 } =
      .ok () ∧
    Yields (run (ofConfig 10 0
      { Config.defaults with segmentSize := 4, retain := 4, warmup := 0, maxRows := 10 }
      (Boosted.unfitted .defaults))
      ((List.range 6).map (fun i => .get (.ofId i 1 0)) ++ [.get (.ofId 6 1 1), .get (.ofId 0 1 2)])) fun c =>
      (c.Tabulated 10 ∧ Settles .arithmetic c.learner.prepare fun _ => True) ∧
      c.CreditsOwnRows ∧ (∀ req : Request, (withAccount c (c.account.begun req)).CreditsOwnRows) ∧
      (∀ req : Request, Settles (.ofModel Boosted) (answer c req) fun p =>
        (p.2.Tabulated 10 ∧ Settles .arithmetic p.2.learner.prepare fun _ => True) ∧ c.Retains p.2) ∧
      ∀ op : Operation, Settles (.ofModel Boosted) (perform c op) fun d => c.Retains d :=
  ⟨rfl, returns rfl (by decide) (run_tabulates 10 0 _ rfl _)⟩

end CacheReplay.GLCache.Cache
