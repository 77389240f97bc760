import CacheReplay.Proofs.Outcome
import CacheReplay.Proofs.Regression.Growth
import CacheReplay.Regression.Boosting

set_option autoImplicit false

namespace CacheReplay.Regression

def Samples.Numbered (s : Samples) (width : Nat) : Prop := IsWord (s.size * width)

structure TrainingData.Numbered (d : TrainingData) : Prop where
  train : d.train.Numbered d.width
  valid : d.valid.Numbered d.width

theorem mulWord_of_isWord {a b : Nat} (word : IsWord (a * b)) : mulWord a b = .ok (a * b) := if_pos word

section matrix
variable {s : Samples} {width : Nat} (word : s.Numbered width)
include word

theorem Samples.fits_eq : s.fits width = .ok (s.features.size == s.size * width) := by
  rw [fits, mulWord_of_isWord word]
  rfl

variable (pos : 0 < width) (filled : s.features.size = s.size * width)
include pos filled

theorem Samples.yields_row {i : Nat} (hi : i < s.size) :
    Yields (s.row width i) fun x => x.size = width := by
  have stop : (i + 1) * width ≤ s.size * width := Nat.mul_le_mul_right width hi
  have start : i * width ≤ (i + 1) * width := Nat.mul_le_mul_right width (Nat.le_succ i)
  have next : i + 1 ≤ (i + 1) * width := Nat.le_mul_of_pos_right (i + 1) pos
  unfold row
  rw [mulWord_of_isWord (word.of_le (Nat.le_trans start stop)), ok_bind,
    addWord_of_isWord (word.of_le (Nat.le_trans next stop)), ok_bind,
    mulWord_of_isWord (word.of_le stop), ok_bind]
  rw [← filled] at stop
  rw [if_pos stop]
  refine yields_pure ?_
  rw [Array.size_extract, Nat.min_eq_left stop, ← Nat.sub_mul, Nat.add_sub_cancel_left, Nat.one_mul]

theorem Samples.yields_rows :
    Yields (s.rows width) fun rows => rows.size = s.size ∧ ∀ x ∈ rows, x.size = width := by
  have row : ∀ i ∈ (Array.range s.size).toList, Yields (s.row width i) fun x => x.size = width := by
    intro i hi
    exact yields_row word pos filled (by simpa using hi)
  unfold rows
  rw [Array.mapM_eq_mapM_toList]
  apply yields_map ((yields_mapM_all row).mono _)
  intro xs cut
  obtain ⟨length, wide⟩ := cut
  exact ⟨by simpa using length, fun x hx => wide x (by simpa using hx)⟩

end matrix

/-- Rows that have all features and all residuals. -/
structure Residuals.Complete (d : Residuals) : Prop where
  size : d.residuals.size = d.rows.size
  wide : ∀ x ∈ d.rows, x.size = d.width

structure Cut.Fits (s : Settings) (width count : Nat) (c : Cut) : Prop where
  feature : c.feature < width
  left : max s.minRows 1 ≤ c.count
  right : max s.minRows 1 ≤ count - c.count

section cuts
variable {s : Settings} {t : Totals} {width f : Nat}

theorem fits_cutAt (hf : f < width) {left : Nat} {leftSum : Float} {low high : Float32} {c : Cut}
    (h : cutAt s t f left leftSum low high = some c) : c.Fits s width t.count := by
  unfold cutAt at h
  dsimp only at h
  split at h
  · cases h
  · rename_i allowed
    simp only [Bool.or_eq_true, decide_eq_true_eq, not_or, Nat.not_lt] at allowed
    split at h
    · cases h
      exact ⟨hf, allowed.1.2, allowed.2⟩
    · cases h

theorem fits_better {best : Option Cut} {c : Cut} {count : Nat}
    (old : ∀ b, best = some b → b.Fits s width count) (new : c.Fits s width count) :
    ∀ b, Cut.better best c = some b → b.Fits s width count := by
  intro b hb
  unfold Cut.better at hb
  cases best with
  | none =>
    cases hb
    exact new
  | some first =>
    dsimp only at hb
    split at hb
    · cases hb
      exact new
    · cases hb
      exact old _ rfl

theorem fits_scanColumn (hf : f < width) (column : List (Float32 × Float32)) (left : Nat)
    (leftSum : Float) {best : Option Cut} (h : ∀ b, best = some b → b.Fits s width t.count) :
    ∀ b, scanColumn s t f left leftSum column best = some b → b.Fits s width t.count := by
  induction column generalizing left leftSum best with
  | nil => exact h
  | cons first rest ih =>
    obtain ⟨low, r⟩ := first
    cases rest with
    | nil => exact h
    | cons second rest =>
      obtain ⟨high, r'⟩ := second
      unfold scanColumn
      apply ih
      cases found : cutAt s t f (left + 1) (leftSum + r.toFloat) low high with
      | none => exact h
      | some c => exact fits_better h (fits_cutAt hf found)

end cuts

theorem place_of_append {nodes built : Array Node} {held n : Node} {rest : List Node}
    (stands : built.toList = nodes.toList ++ held :: rest) :
    place built nodes.size n = .ok (nodes.toList ++ n :: rest).toArray := by
  have inside : nodes.size < built.size := by
    have length := congrArg List.length stands
    rw [List.length_append, List.length_cons, Array.length_toList, Array.length_toList] at length
    omega
  unfold place
  rw [dif_pos inside]
  refine congrArg Except.ok (Array.toList_inj.mp ?_)
  rw [Array.toList_set, stands, ← Array.length_toList, List.set_append_right _ _ (Nat.le_refl _), Nat.sub_self]
  rfl

namespace Residuals.Complete
variable {d : Residuals} (h : d.Complete)
include h

theorem yields_feature {f i : Nat} (hf : f < d.width) (hi : i < d.rows.size) :
    Yields (d.feature f i) fun _ => True := by
  have inside : f < d.rows[i].size := (h.wide d.rows[i] (Array.getElem_mem hi)).symm ▸ hf
  have some : (d.rows[i]?).bind (·[f]?) = some d.rows[i][f] := by
    rw [Array.getElem?_eq_getElem hi, Option.bind_some, Array.getElem?_eq_getElem]
  unfold feature
  rw [some]
  exact yields_pure trivial

theorem yields_residual {i : Nat} (hi : i < d.rows.size) : Yields (d.residual i) fun _ => True := by
  rw [← h.size] at hi
  unfold residual
  rw [Array.getElem?_eq_getElem hi]
  exact yields_pure trivial

theorem yields_sum {rows : List Nat} (hrows : ∀ i ∈ rows, i < d.rows.size) :
    Yields (d.sum rows) fun _ => True := by
  apply yields_bind (yields_mapM_true fun i hi => h.yields_residual (hrows i hi))
  intro rs _
  exact yields_pure trivial

theorem yields_sortBy (sorting : Sorting) {f : Nat} (hf : f < d.width) {rows : List Nat}
    (hrows : ∀ i ∈ rows, i < d.rows.size) :
    Yields (d.sortBy sorting f rows) fun sorted => (sorted.map (·.2)).Perm rows := by
  have key : ∀ i ∈ rows, Yields (do pure (← d.feature f i, i) : Checked (Float32 × Nat))
      fun e => e.2 = i := by
    intro i hi
    apply yields_bind (h.yields_feature hf (hrows i hi))
    intro x _
    exact yields_pure rfl
  apply yields_bind (yields_mapM key)
  intro keyed named
  have order : rows = keyed.map (·.2) := by
    rw [← List.forall₂_eq_eq_eq, List.forall₂_map_right_iff]
    exact named.imp fun _ _ e => e.symm
  rw [order]
  exact yields_pure ((sorting.perm keyed).map (·.2))

theorem yields_findCut (s : Settings) {t : Totals} {fs rows : List Nat} (hfs : ∀ f ∈ fs, f < d.width)
    (hrows : ∀ i ∈ rows, i < d.rows.size) (some : 0 < t.count) {best : Option Cut}
    (fit : ∀ c, best = .some c → c.Fits s d.width t.count) :
    Yields (findCut s d t fs rows best) fun o => ∀ c, o = .some c → c.Fits s d.width t.count := by
  induction fs generalizing rows best with
  | nil => exact yields_pure fit
  | cons f fs ih =>
    have hf := hfs f List.mem_cons_self
    unfold findCut
    apply yields_bind (h.yields_sortBy s.sorting hf hrows)
    intro sorted perm
    have inside : ∀ i ∈ sorted.map (·.2), i < d.rows.size := fun i hi => hrows i (perm.mem_iff.mp hi)
    have column : ∀ e ∈ sorted, Yields (do pure (e.1, ← d.residual e.2) : Checked (Float32 × Float32))
        fun _ => True := by
      intro e he
      apply yields_bind (h.yields_residual (inside e.2 (List.mem_map_of_mem he)))
      intro r _
      exact yields_pure trivial
    apply yields_bind (yields_mapM_true column)
    intro column _
    rw [subWord_of_le some, ok_bind]
    exact ih (fun g hg => hfs g (List.mem_cons_of_mem f hg)) inside (fits_scanColumn hf column 0 0 fit)

theorem exists_divided {s : Settings} {rows : List Nat} (hrows : ∀ i ∈ rows, i < d.rows.size) {cut : Cut}
    (fits : cut.Fits s d.width rows.length) : ∃ sorted low high,
      d.sortBy s.sorting cut.feature rows = .ok sorted ∧
      divide cut.count (sorted.map (·.2)) = .ok (low, high) ∧ (low ++ high).Perm rows ∧
      max s.minRows 1 ≤ low.length ∧ max s.minRows 1 ≤ high.length := by
  obtain ⟨sorted, ordered, perm⟩ := h.yields_sortBy s.sorting fits.feature hrows
  have length := perm.length_eq
  have left := fits.left
  have right := fits.right
  refine ⟨sorted, _, _, ordered, if_pos (by omega), ?_, ?_, ?_⟩
  · rwa [List.take_append_drop]
  · rw [List.length_take]
    omega
  · rw [List.length_drop]
    omega

variable {s : Settings} (doubled : IsWord (2 * s.minRows))
include doubled

theorem yields_chooseCut {rows : List Nat} (hrows : ∀ i ∈ rows, i < d.rows.size) (some : 0 < rows.length)
    (sum : Float32) (depth : Nat) : Yields (chooseCut s d rows sum depth) fun o =>
      ∀ c, o = .some c → c.Fits s d.width rows.length ∧ depth < s.maxDepth := by
  have none : ∀ c, (none : Option Cut) = .some c → c.Fits s d.width rows.length ∧ depth < s.maxDepth := by
    intro c hc
    cases hc
  unfold chooseCut
  split
  · rename_i shallow
    rw [mulWord_of_isWord doubled, ok_bind]
    split
    · have begin : ∀ c, (.none : Option Cut) = .some c → c.Fits s d.width rows.length := by
        intro c hc
        cases hc
      apply (h.yields_findCut s (fun f hf => List.mem_range.mp hf) hrows some begin).mono
      exact fun o fit c hc => ⟨fit c hc, shallow⟩
    · exact yields_pure none
  · exact yields_pure none

/-- A subtree can be grown on any rows there are, however deep it may get. Its nodes are appended
in preorder. No more steps are needed than there are rows, so the limit on them cuts nothing off. -/
theorem yields_grow (fuel : Nat) {rows : List Nat} (hrows : ∀ i ∈ rows, i < d.rows.size)
    (some : 0 < rows.length) (enough : rows.length ≤ fuel) (depth : Nat) (nodes : Array Node) :
    Yields (grow s d fuel rows depth nodes) fun p => ∃ g, Grows s d rows depth g ∧
      g.Shares s rows depth ∧ p.1 = nodes.size ∧ p.2.toList = nodes.toList ++ g.nodes nodes.size := by
  induction fuel generalizing rows depth nodes with
  | zero => exact absurd enough (Nat.not_le.mpr some)
  | succ fuel ih =>
    obtain ⟨sum, total, -⟩ := h.yields_sum hrows
    obtain ⟨choice, chosen, fit⟩ := h.yields_chooseCut doubled hrows some sum depth
    unfold grow
    rw [total, ok_bind, chosen, ok_bind]
    cases choice with
    | none =>
      refine yields_pure ⟨.leaf rows _, .leaf total chosen rfl, .leaf rows _, rfl, ?_⟩
      exact Array.toList_push
    | some cut =>
      obtain ⟨fits, shallow⟩ := fit cut rfl
      obtain ⟨sorted, low, high, ordered, divided, perm, enoughLow, enoughHigh⟩ := h.exists_divided hrows fits
      have length := perm.length_eq
      rw [List.length_append] at length
      have inside : ∀ i ∈ low ++ high, i < d.rows.size := fun i hi => hrows i (perm.mem_iff.mp hi)
      obtain ⟨insideLow, insideHigh⟩ := List.forall_mem_append.mp inside
      -- The left subtree stands behind the leaf that is to be split, the right one behind both.
      obtain ⟨⟨_, first⟩, grown, left, lower, below, rfl, stands⟩ :=
        ih insideLow (by omega) (by omega) (depth + 1) (nodes.push (leafOf s rows.length sum))
      obtain ⟨⟨_, second⟩, grown', right, upper, above, rfl, stands'⟩ :=
        ih insideHigh (by omega) (by omega) (depth + 1) first
      dsimp only at stands stands'
      have size : first.size = nodes.size + 1 + left.size := by
        rw [← Array.length_toList, stands, List.length_append, Growth.length_nodes, Array.length_toList,
          Array.size_push]
      rw [stands, Array.toList_push, Array.size_push, size, List.append_assoc, List.append_assoc,
        List.singleton_append] at stands'
      dsimp only [pushNode]
      rw [ordered, ok_bind, divided, ok_bind]
      dsimp only
      rw [grown, ok_bind]
      dsimp only
      rw [grown', ok_bind, place_of_append stands', ok_bind]
      refine yields_pure ⟨.split _ _ _ _, .split total chosen ordered divided lower upper,
        below.split above perm shallow enoughLow enoughHigh, rfl, ?_⟩
      dsimp only
      rw [List.toList_toArray, Growth.nodes, size, Array.size_push]

theorem yields_ofResiduals (some : 0 < d.rows.size) : Yields (Tree.ofResiduals s d) (Tree.Grown s d) := by
  have inside : ∀ i ∈ List.range d.rows.size, i < d.rows.size := fun i hi => List.mem_range.mp hi
  have length := List.length_range (n := d.rows.size)
  unfold Tree.ofResiduals
  apply yields_bind (h.yields_grow doubled d.rows.size inside (by omega) (Nat.le_of_eq length) 0 #[])
  rintro ⟨_, nodes⟩ ⟨g, grows, shares, -, stands⟩
  exact yields_pure ⟨g, ⟨grows, stands⟩, shares⟩

end Residuals.Complete

namespace TrainingData
variable {d : TrainingData}

/-- What passes the check has rows, as many features as they need, and cells that can be numbered. -/
structure Sane (d : TrainingData) : Prop where
  numbered : d.Numbered
  wide : 0 < d.width
  some : 0 < d.train.size
  train : d.train.features.size = d.train.size * d.width
  valid : d.valid.features.size = d.valid.size * d.width

theorem numbered_of_fits {s : Samples} {width : Nat} {b : Bool} (h : s.fits width = .ok b) :
    s.Numbered width ∧ b = (s.features.size == s.size * width) := by
  obtain ⟨wanted, product, h⟩ := bind_eq_ok_iff.1 h
  obtain ⟨rfl, word⟩ := (mulWord_eq_ok_iff ..).1 product
  cases h
  exact ⟨word, rfl⟩

theorem sane_of_flaw (accepted : d.flaw = .ok none) : d.Sane := by
  unfold flaw at accepted
  split at accepted
  · cases accepted
  rename_i wide
  split at accepted
  · cases accepted
  rename_i some
  obtain ⟨_, fits, accepted⟩ := bind_eq_ok_iff.1 accepted
  obtain ⟨train, rfl⟩ := numbered_of_fits fits
  split at accepted
  · cases accepted
  rename_i trainFull
  obtain ⟨_, fits', accepted⟩ := bind_eq_ok_iff.1 accepted
  obtain ⟨valid, rfl⟩ := numbered_of_fits fits'
  split at accepted
  · cases accepted
  rename_i validFull
  refine ⟨⟨train, valid⟩, Nat.pos_of_ne_zero wide, Nat.pos_of_ne_zero some, ?_, ?_⟩
  · simpa using trainFull
  · simpa using validFull

theorem Numbered.yields_flaw (h : d.Numbered) : Yields d.flaw fun _ => True := by
  unfold flaw
  split
  · exact yields_pure trivial
  split
  · exact yields_pure trivial
  rw [Samples.fits_eq h.train, ok_bind]
  split
  · exact yields_pure trivial
  rw [Samples.fits_eq h.valid, ok_bind]
  split
  · exact yields_pure trivial
  split
  · exact yields_pure trivial
  split
  · exact yields_pure trivial
  · exact yields_pure trivial

end TrainingData

/-- A row for each label, and each row to learn from as wide as it should be. -/
structure Lesson.Matched (l : Lesson) : Prop where
  some : 0 < l.trainRows.size
  size : l.trainRows.size = l.trainLabels.length
  valid : l.validRows.size = l.validLabels.length
  wide : ∀ x ∈ l.trainRows, x.size = l.width

theorem Lesson.yields_ofData {d : TrainingData} (h : d.Sane) : Yields (Lesson.ofData d) fun l =>
    l.Matched ∧ l.trainRows.size = d.train.size := by
  unfold ofData
  apply yields_bind (Samples.yields_rows h.numbered.train h.wide h.train)
  intro trainRows cut
  apply yields_bind (Samples.yields_rows h.numbered.valid h.wide h.valid)
  intro validRows cut'
  exact yields_pure ⟨⟨cut.1 ▸ h.some, cut.1, cut'.1, cut.2⟩, cut.1⟩

end CacheReplay.Regression
