import CacheReplay.Proofs.Regression.Rounds
import Mathlib.Algebra.Ring.Nat

set_option autoImplicit false

namespace CacheReplay.Regression

/-- A tree that was grown on all rows, together with how it was grown. -/
structure Tree.Regular (s : Settings) (d : Residuals) (t : Tree) (g : Growth) : Prop where
  grown : t.GrownAs s d g
  preorder : t.Preorder
  shallow : g.depth ≤ s.maxDepth
  /-- Each row is in one leaf. -/
  perm : g.parts.flatten.Perm (List.range d.rows.size)
  stocked : (∃ weight, g = .leaf (List.range d.rows.size) weight) ∨
    ∀ part ∈ g.parts, max s.minRows 1 ≤ part.length
  /-- A row of any length is led to a leaf, and its weight is the prediction. -/
  leads : ∀ x : Row, ∃ j k, t.Walk x 0 j k ∧ t.nodes[j]? = some (.leaf (t.predict x)) ∧ k ≤ s.maxDepth

theorem Tree.Grown.exists_regular {s : Settings} {d : Residuals} {t : Tree} (h : t.Grown s d) :
    ∃ g, t.Regular s d g := by
  obtain ⟨g, grown, shares⟩ := h
  have shallow : g.depth ≤ s.maxDepth := by simpa using shares.shallow (Nat.zero_le _)
  refine ⟨g, grown, grown.preorder, shallow, shares.perm, shares.stocked, fun x => ?_⟩
  obtain ⟨j, k, walk, ends, short⟩ := grown.exists_walk_predict x
  exact ⟨j, k, walk, ends, short.trans shallow⟩

/-- On the rows of accepted data a regular tree can be grown for whatever there is to explain. A fit
to them answers. It grows a regular tree a round on what the earlier ones leave of the labels, for as
many rounds as it may unless it stalls, and keeps these trees if all that they predict is finite. -/
theorem Boosted.fit_grows_regular {m : Boosted} {d : TrainingData} (accepted : d.flaw = .ok none)
    (small : m.settings.minRows < 2 ^ 63) : ∃ l, Lesson.ofData d = .ok l ∧
      l.trainRows.size = d.train.size ∧
      (∀ residuals : Array Float32, residuals.size = d.train.size → ∃ t g,
        Tree.ofResiduals m.settings ⟨l.width, l.trainRows, residuals⟩ = .ok t ∧
          t.Regular m.settings ⟨l.width, l.trainRows, residuals⟩ g) ∧
      ∃ trees p, m.fit d = .ok p ∧ m.Comes l trees p ∧ p.2.trees.length ≤ m.settings.maxRounds ∧
        ∀ t older, t :: older <:+ trees → Tree.ofResiduals m.settings (l.residuals l.mean older) = .ok t ∧
          ∃ g, t.Regular m.settings (l.residuals l.mean older) g := by
  have doubled : IsWord (2 * m.settings.minRows) := by
    unfold IsWord wordBound
    omega
  obtain ⟨l, cut, matched, size⟩ := Lesson.yields_ofData (TrainingData.sane_of_flaw accepted)
  have grows : ∀ residuals : Array Float32, residuals.size = l.trainRows.size → ∃ t g,
      Tree.ofResiduals m.settings ⟨l.width, l.trainRows, residuals⟩ = .ok t ∧
        t.Regular m.settings ⟨l.width, l.trainRows, residuals⟩ g := by
    intro residuals same
    have complete : Residuals.Complete ⟨l.width, l.trainRows, residuals⟩ := ⟨same, matched.wide⟩
    obtain ⟨t, made, grown⟩ := complete.yields_ofResiduals doubled matched.some
    obtain ⟨g, regular⟩ := grown.exists_regular
    exact ⟨t, g, made, regular⟩
  obtain ⟨p, fitted, trees, comes⟩ := yields_fit_of_flaw accepted cut matched doubled
  refine ⟨l, cut, size, fun residuals same => grows residuals (same.trans size.symm), trees, p, fitted, comes,
    comes.length_trees, fun t older part => ?_⟩
  have grown := comes.boosts.grown part
  obtain ⟨_, g, again, regular⟩ := grows _ (matched.complete l.mean older).size
  cases grown.symm.trans again
  exact ⟨grown, g, regular⟩

def TrainingData.steps : TrainingData :=
  ((((TrainingData.empty 1).pushTrain #[0] 1).pushTrain #[1] 1).pushTrain #[2] 5).pushTrain #[3] 5

/-- Without rows to validate on no round is left out. -/
theorem Boosted.fit_grows_regular_steps :
    TrainingData.steps.flaw = .ok none ∧ (Boosted.unfitted .defaults).settings.minRows < 2 ^ 63 ∧
      ∃ l trees p, (Boosted.unfitted .defaults).fit .steps = .ok p ∧
        (Boosted.unfitted .defaults).Comes l trees p ∧ trees.length = 20 ∧
        ∀ t older, t :: older <:+ trees → ∃ g, t.Regular .defaults (l.residuals l.mean older) g := by
  have accepted : TrainingData.steps.flaw = .ok none := by decide +kernel
  have small : (Boosted.unfitted .defaults).settings.minRows < 2 ^ 63 := by decide
  obtain ⟨l, cut, -, -, trees, p, fitted, comes, -, regular⟩ := Boosted.fit_grows_regular accepted small
  have none : (Lesson.ofData .steps).toOption.map (·.validLabels.length) = some 0 := by decide +kernel
  rw [cut] at none
  have few : ¬l.Stalls Settings.defaults l.mean trees := fun stalls =>
    absurd (stalls.1.trans (Nat.le_of_eq (Option.some.inj none))) (by decide)
  have all : trees.length = 20 := Nat.le_antisymm comes.rounds (Nat.not_lt.mp fun less => few (comes.early less))
  exact ⟨accepted, small, l, trees, p, fitted, comes, all, fun t older part => (regular t older part).2⟩

end CacheReplay.Regression
