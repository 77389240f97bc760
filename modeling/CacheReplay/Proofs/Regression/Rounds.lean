import CacheReplay.Proofs.Regression.Fitting

set_option autoImplicit false

namespace CacheReplay.Regression

namespace Lesson

/-- What a base score and some trees, the latest one first, add up to. -/
def predictions (rows : Array Row) (base : Float32) (trees : List Tree) : List Float32 :=
  rows.toList.map fun x => trees.foldr (fun t q => q + t.predict x) base

/-- What some trees leave of the labels. -/
def residuals (l : Lesson) (base : Float32) (trees : List Tree) : Residuals :=
  ⟨l.width, l.trainRows, (l.trainLabels.zipWith (· - ·) (predictions l.trainRows base trees)).toArray⟩

/-- The validation error of some trees. Before the first one it counts as zero. -/
def error (l : Lesson) (base : Float32) : List Tree → Float
  | [] => 0
  | t :: ts => rootMeanSquare (predictions l.validRows base (t :: ts)) l.validLabels

def idle (l : Lesson) (s : Settings) (base : Float32) : List Tree → Nat
  | [] => 0
  | t :: ts => if s.settled (l.error base ts) (l.error base (t :: ts)) then l.idle s base ts + 1 else 0

/-- Boosting stops early behind the latest of some trees. -/
def Stalls (l : Lesson) (s : Settings) (base : Float32) (trees : List Tree) : Prop :=
  s.minValid ≤ l.validLabels.length ∧ 0 < l.idle s base trees ∧ s.stableRounds ≤ l.idle s base trees

/-- Trees, the latest one first, that were grown in turn on what the ones before left. -/
inductive Boosts (l : Lesson) (s : Settings) (base : Float32) : List Tree → Prop
  | start : Boosts l s base []
  | round {trees : List Tree} {t : Tree} (earlier : Boosts l s base trees) (on : ¬l.Stalls s base trees)
      (grown : Tree.ofResiduals s (l.residuals base trees) = .ok t) : Boosts l s base (t :: trees)

variable {l : Lesson} {s : Settings} {base : Float32}

theorem predictions_cons (rows : Array Row) (base : Float32) (t : Tree) (trees : List Tree) :
    (predictions rows base trees).zipWith (fun q x => q + t.predict x) rows.toList =
      predictions rows base (t :: trees) := by
  rw [predictions, predictions, List.zipWith_map_left, List.zipWith_self]
  rfl

theorem predictions_nil {labels : List Float32} {rows : Array Row} (same : rows.size = labels.length) :
    labels.map (fun _ => base) = predictions rows base [] := by
  rw [predictions, List.map_const', ← same, ← Array.length_toList, ← List.map_const']
  rfl

theorem Matched.complete (h : l.Matched) (base : Float32) (trees : List Tree) :
    (l.residuals base trees).Complete where
  size := by
    rw [residuals, List.size_toArray, List.length_zipWith, predictions, List.length_map, Array.length_toList,
      ← h.size, Nat.min_self]
  wide := h.wide

theorem not_stalls_nil : ¬l.Stalls s base [] := fun stalls => absurd stalls.2.1 (Nat.lt_irrefl 0)

end Lesson

/-- What boosting has come to with the trees that it has grown. -/
structure Progress.Follows (p : Progress) (l : Lesson) (s : Settings) (base : Float32) : Prop where
  boosts : l.Boosts s base p.trees
  train : p.trainPredictions = Lesson.predictions l.trainRows base p.trees
  valid : p.validPredictions = Lesson.predictions l.validRows base p.trees
  error : s.minValid ≤ l.validLabels.length → p.lastError = l.error base p.trees
  stable : s.minValid ≤ l.validLabels.length → p.stable = l.idle s base p.trees

namespace Progress
variable {l : Lesson} {s : Settings} {base : Float32} {p : Progress}

theorem follows_start (h : l.Matched) (s : Settings) (base : Float32) : (start base l).Follows l s base where
  boosts := .start
  train := Lesson.predictions_nil h.size
  valid := Lesson.predictions_nil h.valid
  error _ := rfl
  stable _ := rfl

def extendedBy (l : Lesson) (base : Float32) (p : Progress) (t : Tree) : Progress :=
  { p with
    trees := t :: p.trees
    trainPredictions := Lesson.predictions l.trainRows base (t :: p.trees)
    validPredictions := Lesson.predictions l.validRows base (t :: p.trees) }

theorem Follows.yields_extend (matched : l.Matched) (doubled : IsWord (2 * s.minRows)) (h : p.Follows l s base) :
    Yields (p.extend s l) fun q => ∃ t, q = extendedBy l base p t ∧
      Tree.ofResiduals s (l.residuals base p.trees) = .ok t := by
  obtain ⟨t, grown, -⟩ := (matched.complete base p.trees).yields_ofResiduals doubled matched.some
  refine ⟨_, ?_, t, rfl, grown⟩
  unfold extend
  rw [h.train, h.valid, extendedBy, ← Lesson.predictions_cons, ← Lesson.predictions_cons]
  change (Tree.ofResiduals s (l.residuals base p.trees) >>= _) = _
  rw [grown, ok_bind]
  rfl

theorem Follows.assess (h : p.Follows l s base) (on : ¬l.Stalls s base p.trees) {t : Tree}
    (grown : Tree.ofResiduals s (l.residuals base p.trees) = .ok t) {stop : Bool} {q : Progress}
    (assessed : (extendedBy l base p t).assess s l = (stop, q)) :
    q.Follows l s base ∧ q.trees = t :: p.trees ∧ (stop = true ↔ l.Stalls s base q.trees) := by
  have boosts := h.boosts.round on grown
  unfold Progress.assess at assessed
  by_cases few : l.validLabels.length < s.minValid
  · rw [if_pos few] at assessed
    cases assessed
    refine ⟨⟨boosts, rfl, rfl, fun many => absurd few (Nat.not_lt.mpr many),
      fun many => absurd few (Nat.not_lt.mpr many)⟩, rfl, ?_⟩
    exact iff_of_false Bool.false_ne_true fun stalls => absurd few (Nat.not_lt.mpr stalls.1)
  have many := Nat.not_lt.mp few
  have idle : l.idle s base (t :: p.trees) =
      if s.settled p.lastError (l.error base (t :: p.trees)) then p.stable + 1 else 0 := by
    rw [h.error many, h.stable many]
    rfl
  rw [if_neg few] at assessed
  by_cases settled : s.settled p.lastError (l.error base (t :: p.trees)) = true
  · cases (if_pos settled).symm.trans assessed
    rw [if_pos settled] at idle
    refine ⟨⟨boosts, rfl, rfl, fun _ => rfl, fun _ => idle.symm⟩, rfl, decide_eq_true_iff.trans ?_⟩
    refine ⟨fun enough => ⟨many, ?_, ?_⟩, fun stalls => ?_⟩
    · exact Nat.lt_of_lt_of_eq (Nat.succ_pos _) idle.symm
    · exact enough.trans (Nat.le_of_eq idle.symm)
    · exact stalls.2.2.trans (Nat.le_of_eq idle)
  · cases (if_neg settled).symm.trans assessed
    rw [if_neg settled] at idle
    refine ⟨⟨boosts, rfl, rfl, fun _ => rfl, fun _ => idle.symm⟩, rfl, ?_⟩
    exact iff_of_false Bool.false_ne_true fun stalls => absurd stalls.2.1 (Nat.not_lt.mpr (Nat.le_of_eq idle))

theorem Follows.yields_boost (matched : l.Matched) (doubled : IsWord (2 * s.minRows)) (rounds : Nat)
    (h : p.Follows l s base) (on : ¬l.Stalls s base p.trees) : Yields (boost s l rounds p) fun q =>
      q.Follows l s base ∧ q.trees.length ≤ p.trees.length + rounds ∧
      (q.trees.length < p.trees.length + rounds → l.Stalls s base q.trees) := by
  induction rounds generalizing p with
  | zero => exact yields_pure ⟨h, Nat.le_refl _, fun less => absurd less (Nat.lt_irrefl _)⟩
  | succ rounds ih =>
    unfold boost
    apply yields_bind (h.yields_extend matched doubled)
    rintro _ ⟨t, rfl, grown⟩
    rcases assessed : (extendedBy l base p t).assess s l with ⟨stop, q⟩
    obtain ⟨follows, trees, stops⟩ := h.assess on grown assessed
    have length : q.trees.length = p.trees.length + 1 := congrArg List.length trees
    dsimp only
    split
    · rename_i halt
      exact yields_pure ⟨follows, by omega, fun _ => stops.mp halt⟩
    · rename_i goes
      refine (ih follows fun stalls => goes (stops.mpr stalls)).mono fun q boosted => ?_
      rw [length, Nat.add_assoc, Nat.add_comm 1] at boosted
      exact boosted

end Progress

theorem Lesson.Boosts.grown {l : Lesson} {s : Settings} {base : Float32} {trees older : List Tree} {t : Tree}
    (h : l.Boosts s base trees) (part : t :: older <:+ trees) :
    Tree.ofResiduals s (l.residuals base older) = .ok t := by
  induction h with
  | start => exact absurd (List.eq_nil_of_suffix_nil part) (List.cons_ne_nil t older)
  | round _ _ grown ih =>
    rcases List.suffix_cons_iff.mp part with e | part
    · cases e
      exact grown
    · exact ih part

namespace Boosted
variable {m : Boosted} {d : TrainingData}

/-- What a fit comes to that grows some trees, the latest one first: it answers with them, or it leaves
none when some prediction is not finite. -/
structure Comes (m : Boosted) (l : Lesson) (trees : List Tree) (p : Except FitError Unit × Boosted) : Prop where
  boosts : l.Boosts m.settings l.mean trees
  rounds : trees.length ≤ m.settings.maxRounds
  early : trees.length < m.settings.maxRounds → l.Stalls m.settings l.mean trees
  eq : p = if l.trainRows.all fun x => (score l.mean trees.reverse x).isFinite
    then (.ok (), { m with base := l.mean, trees := trees.reverse, fitted := true })
    else (.error .predictionNotFinite, { m with base := l.mean, trees := [], fitted := false })

theorem Comes.length_trees {l : Lesson} {trees : List Tree} {p : Except FitError Unit × Boosted}
    (h : m.Comes l trees p) : p.2.trees.length ≤ m.settings.maxRounds := by
  rw [h.eq]
  split
  · exact (Nat.le_of_eq List.length_reverse).trans h.rounds
  · exact Nat.zero_le _

theorem Comes.settings_eq {l : Lesson} {trees : List Tree} {p : Except FitError Unit × Boosted}
    (h : m.Comes l trees p) : p.2.settings = m.settings := by
  rw [h.eq]
  split <;> rfl

theorem yields_fit_of_flaw (accepted : d.flaw = .ok none) {l : Lesson} (cut : Lesson.ofData d = .ok l)
    (matched : l.Matched) (doubled : IsWord (2 * m.settings.minRows)) :
    Yields (m.fit d) fun p => ∃ trees, m.Comes l trees p := by
  have start := Progress.follows_start matched m.settings l.mean
  obtain ⟨p, boosted, follows, most, early⟩ :=
    start.yields_boost matched doubled m.settings.maxRounds Lesson.not_stalls_nil
  have none : (Progress.start l.mean l).trees.length + m.settings.maxRounds = m.settings.maxRounds := Nat.zero_add _
  rw [none] at most early
  unfold fit
  rw [accepted, ok_bind]
  dsimp only
  rw [cut, ok_bind, boosted, ok_bind]
  split
  · rename_i finite
    exact yields_pure ⟨p.trees, follows.boosts, most, early, (if_pos finite).symm⟩
  · rename_i wild
    exact yields_pure ⟨p.trees, follows.boosts, most, early, (if_neg wild).symm⟩

/-- A fit answers, and the model that it leaves has the settings of before. -/
theorem yields_fit (h : d.Numbered) (doubled : IsWord (2 * m.settings.minRows)) :
    Yields (m.fit d) fun p => p.2.settings = m.settings := by
  obtain ⟨flaw, checked, -⟩ := h.yields_flaw
  cases flaw with
  | some e =>
    unfold fit
    rw [checked, ok_bind]
    exact yields_pure rfl
  | none =>
    obtain ⟨l, cut, matched, -⟩ := Lesson.yields_ofData (TrainingData.sane_of_flaw checked)
    exact (yields_fit_of_flaw checked cut matched doubled).mono fun p ⟨_, comes⟩ => comes.settings_eq

end Boosted

end CacheReplay.Regression
