import CacheReplay.Proofs.GLCache.Appraisal
import CacheReplay.Proofs.GLCache.Threading

set_option autoImplicit false

namespace CacheReplay.GLCache
open Regression

namespace Table
variable {a : Table} {seqs : Nat → List Slot}

/-- Only from the last segment of a bucket there is no way on. -/
theorem Strung.stuck_iff (h : a.Strung seqs none) {k : Nat} {i : Slot} (hi : i ∈ seqs k) :
    a.mergeable true 1 (some i) = false ↔ (seqs k).getLast? = some i := by
  obtain ⟨l, r, split⟩ := List.append_of_mem hi
  have nodup := (h.family.represents k).nodup
  have moves := h.mergeable_iff (s := i :: r) split 1
  rw [List.head?_cons] at moves
  rw [← Bool.not_eq_true, moves, split, List.getLast?_append_cons]
  cases r with
  | nil => simp
  | cons j r =>
    have apart : i ∉ j :: r := by
      rw [split] at nodup
      exact (List.nodup_cons.mp (List.nodup_append.mp nodup).2.1).1
    refine iff_of_false (fun stuck => stuck (.inr ?_)) fun last => apart ?_
    · simp
    · rw [List.getLast?_cons_cons] at last
      exact List.mem_of_getLast? last

theorem get?_foldl_utility (a : Table) (rated : Slot → Float → Prop) {slots : List Slot}
    {utilities : List (Slot × Float)} (each : List.Forall₂ (fun i p => p.1 = i ∧ rated i p.2) slots utilities)
    (nodup : slots.Nodup) (i : Slot) :
    (i ∈ slots → ∃ u, rated i u ∧
      (utilities.foldl (fun t (i, utility) => t.modify i fun s => { s with utility }) a).get? i =
        (a.get? i).map fun s => { s with utility := u }) ∧
    (i ∉ slots →
      (utilities.foldl (fun t (i, utility) => t.modify i fun s => { s with utility }) a).get? i = a.get? i) := by
  induction each generalizing a with
  | nil => exact ⟨nofun, fun _ => rfl⟩
  | @cons j p slots utilities first _ ih =>
    obtain ⟨m, utility⟩ := p
    obtain ⟨rfl, rates⟩ := first
    obtain ⟨out, inner⟩ := List.nodup_cons.mp nodup
    have later := ih (a.modify m fun s => { s with utility }) inner
    rw [List.foldl_cons]
    constructor
    · intro hi
      rcases List.mem_cons.mp hi with rfl | hi
      · refine ⟨utility, rates, (later.2 out).trans ?_⟩
        rw [get?_modify, if_pos rfl]
      · obtain ⟨u, known, get⟩ := later.1 hi
        refine ⟨u, known, get.trans ?_⟩
        rw [get?_modify, if_neg (show m ≠ i from fun e => out (e ▸ hi))]
    · intro hi
      obtain ⟨apart, hi⟩ := List.ne_and_not_mem_of_not_mem_cons hi
      rw [later.2 hi, get?_modify, if_neg (Ne.symm apart)]

end Table

namespace Cache
variable {μ : Type}

/-- The segments that are penalised. -/
def Penalised (c : Cache μ) (i : Slot) (s : Segment) : Prop :=
  c.contents.table.count s.bucket < c.config.mergeCount + 1 ∨
    c.config.signal.trained = false ∧ (c.contents.table.chainOf s.bucket).getLast? = some i

instance (c : Cache μ) (i : Slot) (s : Segment) : Decidable (c.Penalised i s) :=
  inferInstanceAs (Decidable (_ ∨ _))

variable [Regressor μ] {t : Tolerance} {c : Cache μ}

/-- What a segment is worth, as the model predicts it or as far as it can be foreseen. -/
def worth (c : Cache μ) (s : Segment) : Checked Float :=
  if c.config.signal.trained then do
    let features ← s.features c.account.clock
    pure (Learner.utility (Regressor.predict c.learner.model features).toFloat s.bytes)
  else lossOf c.contents.store s.objects.toList c.config.objectScore c.moment
    (c.config.signal = .twoOracle) c.utilityRetained

/-- The utility of a segment is its worth, with the penalty added if it is penalised. -/
def Rating (c : Cache μ) (i : Slot) (s : Segment) (utility : Float) : Prop :=
  ∃ worth, c.worth s = .ok worth ∧
    utility = if c.Penalised i s then worth + unmergeablePenalty else worth

structure Rates (c : Cache μ) (b : Table) : Prop where
  live : ∀ i s, c.contents.table.get? i = some s → s.bucket ≠ quarantine →
    ∃ v, b.get? i = some v ∧ c.Rating i s v.utility
  quarantined : ∀ i s, c.contents.table.get? i = some s → s.bucket = quarantine →
    ∃ v, b.get? i = some v ∧ v.utility = s.utility

theorem settles_utilityOf_rating (strung : c.contents.table.Strung c.contents.table.chainOf none) {i : Slot}
    {s : Segment} (hs : c.contents.table.get? i = some s) : Settles t (c.utilityOf i s) (c.Rating i s) := by
  unfold utilityOf
  split
  · rename_i trained
    apply settles_bind (s.settles_features c.account.clock).eq_ok
    rintro features ⟨known, -⟩
    refine settles_pure ⟨_, by rw [worth, if_pos trained, known]; rfl, ?_⟩
    simp only [Penalised, trained, Bool.true_eq_false, false_and, or_false]
  · rename_i foreseen
    apply settles_bind (settles_lossOf ..).eq_ok
    rintro loss ⟨known, -⟩
    refine settles_pure ⟨loss, by rw [worth, if_neg foreseen, known], ?_⟩
    have last := strung.stuck_iff ((strung.mem_iff s.bucket i).mpr ⟨s, hs, rfl⟩)
    simp only [Penalised, Bool.or_eq_true, Bool.not_eq_true', decide_eq_true_eq, last, foreseen,
      true_and, or_comm]

theorem settles_appraise_rates (strung : c.contents.table.Strung c.contents.table.chainOf none) :
    Settles t c.appraise c.Rates := by
  unfold appraise
  refine settles_bind (settles_mapM fun i hi => (?_ : Settles t _ fun p : Slot × Float =>
    p.1 = i ∧ ∀ s, c.contents.table.get? i = some s → c.Rating i s p.2)) fun utilities each => ?_
  · obtain ⟨s, hs, -⟩ := (strung.mem_live_iff i).mp hi
    rw [hs]
    apply settles_bind (settles_utilityOf_rating strung hs)
    intro u known
    refine settles_pure ⟨rfl, fun v hv => ?_⟩
    cases hv
    exact known
  · have rated := Table.get?_foldl_utility c.contents.table
      (fun i u => ∀ s, c.contents.table.get? i = some s → c.Rating i s u) each strung.nodup_live
    refine settles_pure ⟨fun i s hs home => ?_, fun i s hs home => ⟨s, ?_, rfl⟩⟩
    · obtain ⟨u, known, get⟩ := (rated i).1 ((strung.mem_live_iff i).mpr ⟨s, hs, home⟩)
      rw [hs] at get
      exact ⟨_, get, known s hs⟩
    · refine ((rated i).2 fun hi => ?_).trans hs
      obtain ⟨u, hu, live⟩ := (strung.mem_live_iff i).mp hi
      cases hu.symm.trans hs
      exact live home

theorem Rates.rerank {b : Table} (h : c.Rates b) (strung : b.Strung b.chainOf none) (ranked : b.Ranked) :
    c.Rates b.rerank := by
  have same := (Table.rerank_reordered strung ranked.live).segments.of_comp (g := Segment.utility)
    Segment.utility fun _ => rfl
  constructor
  · intro i s hs home
    obtain ⟨v, hv, rating⟩ := h.live i s hs home
    obtain ⟨w, hw, utility⟩ := same.get? hv
    exact ⟨w, hw, utility ▸ rating⟩
  · intro i s hs home
    obtain ⟨v, hv, before⟩ := h.quarantined i s hs home
    obtain ⟨w, hw, utility⟩ := same.get? hv
    exact ⟨w, hw, utility.trans before⟩

theorem Rates.of_grown {b : Table}
    (h : Rates { c with contents := { c.contents with table := c.contents.table.growRanking.2 } } b) :
    c.Rates b := by
  have grown : ∃ ranking, c.contents.table.growRanking.2 = { c.contents.table with ranking } := by
    unfold Table.growRanking
    split
    · exact ⟨_, rfl⟩
    · exact ⟨_, rfl⟩
  obtain ⟨ranking, grown⟩ := grown
  rw [grown] at h
  exact ⟨h.live, h.quarantined⟩

theorem Sound.settles_pass_rates (h : c.Sound) : Settles t (Table.rerank <$> c.appraise) c.Rates :=
  settles_map <| ((c.settles_appraise h.contents.strung h.contents.ranked).and
    (settles_appraise_rates h.contents.strung)).mono fun _ done => done.2.rerank done.1.strung.listed done.1.ranked

theorem Sound.settles_rankedTable_rates (h : c.Sound) :
    Settles t c.rankedTable fun b => c.ranksAnew = true → c.Rates b := by
  have grown := (Table.Settled.refl h.contents.strung h.contents.ranked).growRanking
  have sound : Sound { c with contents := { c.contents with table := c.contents.table.growRanking.2 } } :=
    ⟨h.contents.carried grown.strung grown.ranked grown.carried, h.turn, h.accepted,
      grown.carried.segmentSize.trans h.segmentSize, h.aligned⟩
  unfold rankedTable
  dsimp only
  split
  · rw [bind_pure_comp]
    exact sound.settles_pass_rates.mono fun _ rates _ => rates.of_grown
  · rename_i kept
    exact settles_pure fun anew => absurd anew kept

theorem Sound.yields_pass_rates (h : c.Sound) {n : Nat} (within : c.contents.Within n) (dated : c.moment.Dated) :
    Yields (Table.rerank <$> c.appraise) c.Rates := by
  have answers : Yields (Table.rerank <$> c.appraise) fun _ => True :=
    yields_map (yields_appraise h.contents within dated)
  exact (answers.and (h.settles_pass_rates (t := .any))).mono fun _ done => done.2

/--
A ranking pass adds the penalty to the segments that are penalised and to no others. It can only
be stopped by an overflow, and by none while times are in one era.
-/
structure Penalises (c : Cache μ) : Prop where
  pass : Settles .arithmetic (Table.rerank <$> c.appraise) c.Rates
  yields : ∀ n, c.contents.Within n → c.moment.Dated → Yields (Table.rerank <$> c.appraise) c.Rates
  choice : Settles .arithmetic c.rankedTable fun b => c.ranksAnew = true → c.Rates b

theorem Sound.penalises (h : c.Sound) : c.Penalises where
  pass := h.settles_pass_rates
  yields _ within dated := h.yields_pass_rates within dated
  choice := h.settles_rankedTable_rates

open EvictionPolicy

variable {config : Config} (capacity overhead : Nat) (model : μ)

/--
Whatever a run has done before, also while it makes room for an object: a ranking pass penalises
the segments of buckets that are too small for a merge, and the last segment of each bucket where
no model is trained; all others are rated by what they are worth.
-/
theorem run_penalises (accepted : config.validate = .ok ()) (ops : List Operation) :
    Settles (.ofModel μ) (run (ofConfig capacity overhead config model) ops) fun c =>
      c.Penalises ∧ ∀ (req : Request) (evictions : Nat),
        Settles (.ofModel μ) (makingRoom c req evictions) fun d => d.Penalises :=
  dependable_ofModel.settles_throughout (fun _ h => h.penalises) _ ops
    (sound_ofConfig capacity overhead model accepted)

/-- Nine small objects make three segments, enough for a merge of two, and no model is trained yet. -/
theorem run_penalises_learned :
    Config.validate { Config.defaults with
      segmentSize := 4, retain := 4, signal := .learned, selection := some .learned } = .ok () ∧
    Yields (run (ofConfig 100 0 { Config.defaults with
        segmentSize := 4, retain := 4, signal := .learned, selection := some .learned }
        (Boosted.unfitted .defaults)) ((List.range 9).map (Operation.get ∘ fun i => .ofId i 1 i)))
      (fun c => c.Penalises ∧ ∀ (req : Request) (evictions : Nat),
        Settles (.ofModel Boosted) (makingRoom c req evictions) fun d => d.Penalises) :=
  ⟨rfl, returns rfl (by decide) (run_penalises 100 0 _ rfl _)⟩

end Cache
end CacheReplay.GLCache
