import CacheReplay.Proofs.GLCache.Agreement
import CacheReplay.Proofs.GLCache.Endurance

set_option autoImplicit false

namespace CacheReplay
namespace Regression

inductive Verdict where
  | accepted
  | refused
  | diverged
  deriving Repr, DecidableEq

namespace Boosted

/-- The ways in which a fit ends, and the model that each of them leaves. -/
inductive Ends (m : Boosted) (d : TrainingData) : Verdict → Except FitError Unit → Boosted → Prop
  | accepted (base : Float32) (trees : List Tree) (sane : d.flaw = .ok none) :
      Ends m d .accepted (.ok ()) { m with base, trees, fitted := true }
  | refused (e : FitError) (flaw : d.flaw = .ok (some e)) : Ends m d .refused (.error e) m
  | diverged (base : Float32) (sane : d.flaw = .ok none) :
      Ends m d .diverged (.error .predictionNotFinite) { m with base, trees := [], fitted := false }

theorem ends_of_fit {m m' : Boosted} {d : TrainingData} {r : Except FitError Unit}
    (h : m.fit d = .ok (r, m')) : ∃ v, m.Ends d v r m' := by
  unfold fit at h
  obtain ⟨flaw, hflaw, h⟩ := bind_eq_ok_iff.mp h
  cases flaw with
  | some e =>
    cases h
    exact ⟨.refused, .refused e hflaw⟩
  | none =>
    obtain ⟨lesson, -, h⟩ := bind_eq_ok_iff.mp h
    obtain ⟨progress, -, h⟩ := bind_eq_ok_iff.mp h
    dsimp only at h
    split at h
    · cases h
      exact ⟨.accepted, .accepted _ _ hflaw⟩
    · cases h
      exact ⟨.diverged, .diverged _ hflaw⟩

end Boosted
end Regression

namespace GLCache
open Regression EvictionPolicy

namespace Cache

section model
variable {μ : Type}

def withModel (c : Cache μ) (model : μ) : Cache μ := { c with learner := { c.learner with model } }

variable [Regressor μ] {c : Cache μ} {m : μ}

theorem choose_withModel (other : c.selection ≠ .learned) :
    (c.withModel m).choose = (fun p => (p.1, p.2.withModel m)) <$> c.choose := by
  have same : (c.withModel m).selection = c.selection := rfl
  unfold choose
  rw [same]
  cases e : c.selection with
  | learned => exact absurd e other
  | fifo => rfl
  | weightedFifo => rfl
  | random => rfl

theorem utilityOf_withModel (predict : ∀ x, Regressor.predict m x = Regressor.predict c.learner.model x)
    (i : Slot) (s : Segment) : (c.withModel m).utilityOf i s = c.utilityOf i s := by
  unfold utilityOf
  refine ite_congr rfl (fun _ => ?_) fun _ => rfl
  unfold Learner.predicted
  refine congrArg _ (funext fun features => ?_)
  rw [show (c.withModel m).learner.model = m from rfl, predict]
  rfl

theorem appraise_withModel (predict : ∀ x, Regressor.predict m x = Regressor.predict c.learner.model x) :
    (c.withModel m).appraise = c.appraise := by
  have rated : ∀ i s, (c.withModel m).utilityOf i s = c.utilityOf i s := utilityOf_withModel predict
  unfold appraise
  simp only [rated]
  rfl

theorem rankedTable_withModel (predict : ∀ x, Regressor.predict m x = Regressor.predict c.learner.model x) :
    (c.withModel m).rankedTable = c.rankedTable := by
  unfold rankedTable
  rw [show (c.withModel m).contents = c.contents from rfl]
  dsimp only
  refine ite_congr rfl (fun _ => ?_) fun _ => rfl
  refine congrArg (· >>= _) ?_
  exact appraise_withModel
    (c := { c with contents := { c.contents with table := c.contents.table.growRanking.2 } }) predict

end model

/-- How the training run between two states ended, if there was one. -/
def verdict? {μ : Type} (c d : Cache μ) : Option Verdict :=
  if c.learner.trainings < d.learner.trainings then some .accepted
  else if c.learner.failures < d.learner.failures then
    some (match c.learner.trainingData.flaw with
      | .ok (some _) => .refused
      | _ => .diverged)
  else none

def verdicts {μ : Type} : Observer (Cache μ) (List Verdict) where
  settle c _ d vs := (verdict? c d).toList ++ vs

/-- The latest run tells whether there is a model, and the latest that was not refused whether it is fitted. -/
structure Recorded (l : Learner Boosted) (vs : List Verdict) : Prop where
  ready : l.ready = true ↔ vs.head? = some .accepted
  fitted : l.model.fitted = true ↔ vs.find? (· != .refused) = some .accepted

namespace Recorded
variable {c d : Cache Boosted} {l l' : Learner Boosted} {vs : List Verdict}

theorem start (settings : Settings) (maxRows : Nat) :
    Recorded (.start (.unfitted settings) maxRows) [] := by
  constructor <;> simp [Learner.start, Boosted.unfitted]

theorem of_same (h : Recorded l vs) (ready : l'.ready = l.ready) (model : l'.model = l.model) :
    Recorded l' vs := by
  constructor
  · rw [ready]
    exact h.ready
  · rw [model]
    exact h.fitted

theorem relabelled {rows : Nat → Prop} (h : Recorded l vs) (k : l.Relabelled rows l') : Recorded l' vs := by
  obtain ⟨samples, rfl⟩ := k.same
  exact h.of_same rfl rfl

theorem trained {result : Except FitError Unit} {model : Boosted} (h : Recorded c.learner vs)
    (fit : c.learner.model.fit c.learner.trainingData = .ok (result, model)) (time : Int) (d : Cache Boosted)
    (same : d.learner = { c.learner.trained result model time with samples := d.learner.samples }) :
    Recorded d.learner ((verdict? c d).toList ++ vs) := by
  obtain ⟨v, ends⟩ := Boosted.ends_of_fit fit
  rw [verdict?, same]
  cases ends with
  | accepted base trees sane => constructor <;> simp [Learner.trained]
  | refused e flaw =>
    -- The model is what it was, and so is the latest verdict on it.
    have fitted := h.fitted
    constructor
    · simp [Learner.trained, flaw]
    · simpa [Learner.trained, flaw] using fitted
  | diverged base sane => constructor <;> simp [Learner.trained, sane]

theorem taught (h : Recorded c.learner vs) (taught : Taught c d) :
    Recorded d.learner ((verdict? c d).toList ++ vs) := by
  have idle : ∀ e : Cache Boosted, e.learner.trainings = c.learner.trainings →
      e.learner.failures = c.learner.failures → Recorded e.learner vs →
      Recorded e.learner ((verdict? c e).toList ++ vs) := by
    intro e trainings failures recorded
    simpa [verdict?, trainings, failures] using recorded
  rcases taught with ⟨-, rfl⟩ | ⟨-, b, picked, ready, -, rfl⟩
  · exact idle d rfl rfl h
  cases ready with
  | first _ => exact idle _ rfl rfl (h.of_same rfl rfl)
  | trained _ fit => exact h.trained fit c.account.clock _ rfl

end Recorded

theorem agreement_verdicts : Agreement (verdicts (μ := Boosted)) fun c vs => Recorded c.learner vs where
  begun _ h := h.of_same rfl rfl
  looked _ h looked := h.relabelled looked.relabelled.learner
  admitted _ h _ done := h.relabelled done.relabelled.learner
  shed _ h done := h.relabelled (done.relabelled fun _ => False).learner
  removed _ h done := h.relabelled done.relabelled.learner
  taught _ _ _ h taught :=
    have recorded := h.taught taught
    recorded

/-- What is left of earlier models while no later run has given one. -/
structure Discards (s : Watched (verdicts (μ := Boosted))) : Prop where
  recorded : Recorded s.cache.learner s.notes
  /-- After a failure, a selection that is not prescribed does not look at the model. -/
  unread : s.cache.config.signal.trained = true → s.cache.config.selection = none →
    s.notes.head? ≠ some .accepted → s.cache.selection = .fifo ∧
      ∀ m, (s.cache.withModel m).choose = (fun p => (p.1, p.2.withModel m)) <$> s.cache.choose
  /-- Since a run that diverged, and up to the next success, every ranking is as without a model. -/
  blank : s.notes.find? (· != .refused) ≠ some .accepted →
    (∀ x, Regressor.predict s.cache.learner.model x = 0) ∧ ∀ settings,
      s.cache.rankedTable = (s.cache.withModel (.unfitted settings)).rankedTable

theorem Recorded.discards {s : Watched (verdicts (μ := Boosted))} (h : Recorded s.cache.learner s.notes) :
    Discards s := by
  refine ⟨h, fun trained free failed => ?_, fun failed => ?_⟩
  · have unready : s.cache.learner.ready = false := by
      rw [← Bool.not_eq_true, h.ready]
      exact failed
    have fifo : s.cache.selection = .fifo := by
      simp [selection, free, trained, unready]
    refine ⟨fifo, fun m => choose_withModel ?_⟩
    rw [fifo]
    exact nofun
  · have unfitted : s.cache.learner.model.fitted = false := by
      rw [← Bool.not_eq_true, h.fitted]
      exact failed
    have zero := Boosted.predict_of_not_fitted unfitted
    refine ⟨zero, fun settings => (rankedTable_withModel fun x => ?_).symm⟩
    rw [show Regressor.predict s.cache.learner.model x = 0 from zero x]
    exact Boosted.predict_of_not_fitted rfl x

/--
A run that fails leaves the model to no selection that is free, and to no ranking either unless it failed
by refusing its data; a refusal leaves the model as it was.
-/
theorem run_discards {config : Config} (capacity overhead : Nat) (settings : Settings)
    (accepted : config.validate = .ok ()) (ops : List Operation) :
    Settles (.ofModel Boosted)
      (run (verdicts.watch (ofConfig capacity overhead config (.unfitted settings)) []) ops) (fun s =>
        Discards s ∧ ∀ (req : Request) (evictions : Nat),
          Settles (.ofModel Boosted) (makingRoom s req evictions) Discards) ∧
    Watched.cache <$> run (verdicts.watch (ofConfig capacity overhead config (.unfitted settings)) []) ops =
      run (ofConfig capacity overhead config (Boosted.unfitted settings)) ops ∧
    ∀ (m m' : Boosted) (d : TrainingData) (e : FitError), m.fit d = .ok (.error e, m') →
      d.flaw = .ok (some e) ∧ m' = m ∨ e = .predictionNotFinite ∧ m'.fitted = false := by
  have kept := agreement_verdicts.dependable
  have start := sound_ofConfig capacity overhead (Boosted.unfitted settings) accepted
  refine ⟨?_, Watched.forget_run _ ops, fun m m' d e fit => ?_⟩
  · refine (kept.settles_run _ ops ⟨start, .start settings config.maxRows⟩).mono fun s h => ?_
    refine ⟨h.2.discards, fun req evictions => ?_⟩
    exact (kept.settles_makingRoom s req evictions h).mono fun d hd => hd.2.discards
  · obtain ⟨v, ends⟩ := Boosted.ends_of_fit fit
    cases ends with
    | refused _ flaw => exact .inl ⟨flaw, rfl⟩
    | diverged _ _ => exact .inr ⟨rfl, rfl⟩

/-- The latest run of these was refused, and segments are still ranked by what the one before it has fitted. -/
theorem run_discards_refused :
    Config.validate { Config.defaults with
      segmentSize := 4, retain := 4, warmup := 0, retrainInterval := 1, maxRows := 10,
      selection := some .learned } = .ok () ∧
    Yields (run (verdicts.watch (ofConfig 12 0
        { Config.defaults with
          segmentSize := 4, retain := 4, warmup := 0, retrainInterval := 1, maxRows := 10,
          selection := some .learned } (Boosted.unfitted .defaults)) [])
        ((List.range 12).map (fun i => .get (.ofId i 1 0)) ++ [.get (.ofId 0 1 1), .get (.ofId 0 1 3),
          .evict (.ofId 4 1 3), .get (.ofId 0 1 5), .get (.ofId 0 1 7)])) (fun s =>
      Discards s ∧ ∀ (req : Request) (evictions : Nat),
        Settles (.ofModel Boosted) (makingRoom s req evictions) Discards) :=
  ⟨rfl, returns_watched rfl (by decide) (run_discards 12 0 .defaults rfl _).1⟩

/-- A refused fit leaves a model that predicts what an earlier fit has taught it. -/
theorem fit_keeps_model : ∃ (settings : Settings) (d : TrainingData) (m m' : Boosted) (e : FitError),
    (Boosted.unfitted settings).fit d = .ok (.ok (), m) ∧ m.fit (.empty d.width) = .ok (.error e, m') ∧
      m'.fitted = true ∧ m'.predict #[1] ≠ 0 := by
  refine ⟨{ Settings.defaults with maxRounds := 0 }, (TrainingData.empty 1).pushTrain #[1] 2,
    ⟨{ Settings.defaults with maxRounds := 0 }, Floating.sum32 [2] / Floating.ofNat32 1, [], true⟩, _,
    .noRows, ?_, rfl, rfl, ?_⟩
  · with_unfolding_all rfl
  · decide +kernel

end Cache
end GLCache
end CacheReplay
