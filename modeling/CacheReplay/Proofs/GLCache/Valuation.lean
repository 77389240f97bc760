import CacheReplay.GLCache.Cache
import CacheReplay.Proofs.GLCache.Ranking

set_option autoImplicit false

namespace CacheReplay.GLCache

open Regression

variable {t : Tolerance}

theorem settles_age (a b : Int) : Settles t (age a b) fun _ => True :=
  settles_bind (settles_subTime b a) fun _ _ => settles_pure trivial

theorem Score.settles_eval (kind : Score) (r : Record ObjectTag) (m : Moment) :
    Settles t (kind.eval r m) fun _ => True := by
  unfold eval
  refine settles_bind (settles_age _ _) fun idle _ => ?_
  cases kind with
  | freqAge => exact settles_bind (settles_age _ _) fun _ _ => settles_pure trivial
  | oracle =>
    dsimp only
    cases r.nextAccess with
    | none => exact settles_pure trivial
    | some next => exact settles_bind (settles_age _ _) fun _ _ => settles_pure trivial
  | _ => exact settles_pure trivial

theorem settles_scoresOf (a : Table) (s : Store ObjectTag) (kind : Score) (m : Moment)
    (run : List Slot) : Settles t (scoresOf a s kind m run) fun _ => True := by
  refine settles_mapM_true fun i _ => ?_
  cases s.get? i with
  | none => exact settles_pure trivial
  | some r => exact kind.settles_eval r m

/-- The least score that is kept is one of the scores as long as something is to be kept. -/
theorem yields_cutoff (scores : List Float) {retain : Nat} (pos : 0 < retain) :
    Yields (cutoff scores retain) fun _ => True := by
  unfold cutoff
  split
  · exact yields_pure trivial
  · rename_i more
    have lt : scores.length - retain < (scores.mergeSort Floating.totalLE).length := by
      rw [List.length_mergeSort]
      omega
    rw [List.getElem?_eq_getElem lt]
    exact yields_pure trivial

theorem settles_cutoff (scores : List Float) {retain : Nat} (pos : 0 < retain) :
    Settles t (cutoff scores retain) fun _ => True :=
  (yields_cutoff scores pos).settles

theorem settles_lossOf (s : Store ObjectTag) (objects : List Slot) (kind : Score) (m : Moment)
    (byFuture : Bool) (retained : Nat) :
    Settles t (lossOf s objects kind m byFuture retained) fun _ => True := by
  unfold lossOf
  refine settles_bind (settles_mapM_true fun r _ => ?_) fun pairs _ => settles_pure trivial
  refine settles_bind (Score.settles_eval .oracle r m) fun value _ => ?_
  split
  · exact settles_pure trivial
  · exact settles_bind (kind.settles_eval r m) fun _ _ => settles_pure trivial

theorem Segment.settles_features (s : Segment) (time : Int) :
    Settles t (s.features time) fun row => row.size = featureCount := by
  have settles : Settles t (s.features time) fun _ => True :=
    settles_bind (settles_subTime time s.createTime) fun _ _ => settles_pure trivial
  exact settles.eq_ok.mono fun _ found => size_of_features_eq_ok found.1

theorem Learner.settles_predicted {μ : Type} [Regressor μ] (l : Learner μ) (a : Table) (s : Segment)
    (time : Int) (mergeCount : Nat) :
    Settles t (l.predicted a s time mergeCount) fun _ => True :=
  settles_bind (s.settles_features time) fun _ _ => settles_pure trivial

namespace Table
variable {a b : Table} {seqs : Nat → List Slot}

/-- What choosing leaves alone: the sequences, what segments carry, and that ranks are in order. -/
structure Settled (seqs : Nat → List Slot) (a b : Table) : Prop where
  strung : b.Strung seqs none
  ranked : b.Ranked
  carried : Carried a b

theorem Settled.refl (strung : a.Strung seqs none) (ranked : a.Ranked) : Settled seqs a a :=
  ⟨strung, ranked, .refl a⟩

theorem Settled.trans {c : Table} (h : Settled seqs a b) (k : Settled seqs b c) : Settled seqs a c :=
  ⟨k.strung, k.ranked, h.carried.trans k.carried⟩

theorem Settled.modify_utility (h : Settled seqs a b) (i : Slot) (utility : Float) :
    Settled seqs a (b.modify i fun s => { s with utility }) where
  strung := h.strung.modify i fun _ _ => ⟨rfl, rfl⟩
  ranked := h.ranked.of_same (Arena.same_modify _ _ fun _ _ => rfl) rfl
  carried := h.carried.trans ⟨Arena.same_modify _ _ fun _ _ => rfl, rfl, rfl⟩

theorem Settled.modify_utilities (h : Settled seqs a b) (utilities : List (Slot × Float)) :
    Settled seqs a (utilities.foldl (fun t (i, utility) => t.modify i fun s => { s with utility }) b) := by
  induction utilities generalizing b with
  | nil => exact h
  | cons u utilities ih => exact ih (h.modify_utility u.1 u.2)

theorem Settled.growRanking (h : Settled seqs a b) : Settled seqs a b.growRanking.2 := by
  unfold Table.growRanking
  split
  · refine ⟨h.strung.of_same h.strung.sound (.refl _ _) rfl ⟨rfl, rfl⟩, ?_,
      h.carried.trans ⟨.refl _ _, rfl, rfl⟩⟩
    refine h.ranked.of_fewer (fun p i hi => ?_) fun i u hu _ => ⟨u, hu, rfl, rfl, rfl⟩
    rw [Array.getElem?_replicate] at hi
    split at hi <;> cases hi
  · exact h

theorem Settled.rerank (h : Settled seqs a b) : Settled seqs a b.rerank := by
  have e : b.chainOf = seqs := funext h.strung.chainOf_eq
  obtain ⟨strung, ranked, carried⟩ := rerank_spec h.strung.listed h.ranked.live
  rw [e] at strung
  exact ⟨strung, ranked, h.carried.trans carried⟩

end Table

namespace Cache
variable {μ : Type} [Regressor μ] {seqs : Nat → List Slot}

theorem settles_utilityOf (c : Cache μ) (i : Slot) (s : Segment) :
    Settles t (c.utilityOf i s) fun _ => True := by
  unfold utilityOf
  split
  · exact Learner.settles_predicted ..
  · exact settles_bind (settles_lossOf ..) fun _ _ => settles_pure trivial

theorem settles_appraise (c : Cache μ) (strung : c.contents.table.Strung seqs none)
    (ranked : c.contents.table.Ranked) :
    Settles t c.appraise fun b => Table.Settled seqs c.contents.table b := by
  unfold appraise
  refine settles_bind (settles_mapM_true fun i _ => ?_) fun utilities _ => ?_
  · cases c.contents.table.get? i with
    | none => exact settles_pure trivial
    | some s => exact settles_bind (c.settles_utilityOf i s) fun _ _ => settles_pure trivial
  · exact settles_pure ((Table.Settled.refl strung ranked).modify_utilities utilities)

theorem settles_rankedTable (c : Cache μ) (strung : c.contents.table.Strung seqs none)
    (ranked : c.contents.table.Ranked) :
    Settles t c.rankedTable fun b => Table.Settled seqs c.contents.table b := by
  have grown := (Table.Settled.refl strung ranked).growRanking
  unfold rankedTable
  generalize c.contents.table.growRanking = p at grown ⊢
  obtain ⟨wider, table⟩ := p
  dsimp only at grown ⊢
  split
  · refine settles_bind (settles_appraise _ grown.strung grown.ranked) fun b appraised => ?_
    exact settles_pure (grown.trans appraised).rerank
  · exact settles_pure grown

end Cache
end CacheReplay.GLCache
