import CacheReplay.Regression.Data

set_option autoImplicit false

namespace CacheReplay.Regression

class Regressor (μ : Type) where
  name : μ → String
  /-- Fits the model; a refusal still answers with the model it leaves behind. -/
  fit : μ → TrainingData → Checked (Except FitError Unit × μ)
  predict : μ → Row → Float32
  fitted : μ → Bool

instance {α β : Type} [Regressor α] [Regressor β] : Regressor (α ⊕ β) where
  name
    | .inl m => Regressor.name m
    | .inr m => Regressor.name m
  fit
    | .inl m, d => do
      let (r, m) ← Regressor.fit m d
      pure (r, .inl m)
    | .inr m, d => do
      let (r, m) ← Regressor.fit m d
      pure (r, .inr m)
  predict
    | .inl m => Regressor.predict m
    | .inr m => Regressor.predict m
  fitted
    | .inl m => Regressor.fitted m
    | .inr m => Regressor.fitted m

end CacheReplay.Regression
