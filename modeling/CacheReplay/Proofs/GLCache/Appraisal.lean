import CacheReplay.Proofs.GLCache.Ranges
import CacheReplay.Proofs.GLCache.Rows

set_option autoImplicit false

namespace CacheReplay.GLCache

open Regression

variable {n : Nat} {m : Moment}

theorem yields_age {a b : Int} (ha : InEra a) (hb : InEra b) : Yields (age a b) fun _ => True := by
  unfold age
  rw [subTime_of_inEra hb ha]
  exact yields_pure trivial

theorem Score.yields_eval (kind : Score) {r : Record ObjectTag} (h : r.Within n) (dated : m.Dated) :
    Yields (kind.eval r m) fun _ => True := by
  unfold eval
  apply yields_bind (yields_age h.lastAccess dated.now)
  intro idle _
  cases kind with
  | freqAge =>
    apply yields_bind (yields_age h.lastAccessTime dated.time)
    intro idle _
    exact yields_pure trivial
  | oracle =>
    dsimp only
    cases next : r.nextAccess with
    | none => exact yields_pure trivial
    | some ahead =>
      apply yields_bind (yields_age dated.now (h.nextAccess ahead next))
      intro ahead _
      exact yields_pure trivial
  | _ => exact yields_pure trivial

theorem yields_lossOf {s : Store ObjectTag} {objects : List Slot}
    (within : ∀ i ∈ objects, ∀ r, s.get? i = some r → r.Within n) (kind : Score) (dated : m.Dated)
    (byFuture : Bool) (retained : Nat) :
    Yields (lossOf s objects kind m byFuture retained) fun _ => True := by
  unfold lossOf
  refine yields_bind (yields_mapM_true fun r hr => ?_) fun pairs _ => yields_pure trivial
  obtain ⟨i, hi, get⟩ := List.mem_filterMap.mp hr
  have known := within i hi r get
  apply yields_bind (Score.yields_eval .oracle known dated)
  intro value _
  split
  · exact yields_pure trivial
  · apply yields_bind (kind.yields_eval known dated)
    intro key _
    exact yields_pure trivial

theorem Segment.Within.yields_features {s : Segment} {k : Nat} (h : s.Within n k) {time : Int}
    (era : InEra time) : Yields (s.features time) fun _ => True := by
  unfold features
  rw [subTime_of_inEra era h.createTime]
  exact yields_pure trivial

namespace Contents
variable {c : Contents} (h : c.Sound) (within : c.Within n) (dated : m.Dated)
include h within dated

theorem Sound.yields_scoresOf (kind : Score) {run : List Slot}
    (live : ∀ i ∈ run, ∃ g, c.table.get? i = some g ∧ g.bucket ≠ quarantine) :
    Yields (scoresOf c.table c.store kind m run) fun _ => True := by
  refine yields_mapM_true fun i hi => ?_
  obtain ⟨k, hk, listed⟩ := List.mem_flatMap.mp hi
  obtain ⟨g, hg, home⟩ := live k hk
  rw [Table.objectsOf_of_get? hg] at listed
  cases hr : c.store.get? i with
  | none => exact yields_pure trivial
  | some r => exact kind.yields_eval (within.listed h hg home listed hr) dated

theorem Sound.yields_loss {k : Slot} {g : Segment} (hg : c.table.get? k = some g)
    (home : g.bucket ≠ quarantine) (kind : Score) (byFuture : Bool) (retained : Nat) :
    Yields (lossOf c.store g.objects.toList kind m byFuture retained) fun _ => True :=
  yields_lossOf (fun _ hi _ hr => within.listed h hg home hi hr) kind dated byFuture retained

theorem Sound.yields_firstLabel {k : Slot} {g : Segment} (hg : c.table.get? k = some g)
    (home : g.bucket ≠ quarantine) (how : Labelling) :
    Yields (Learner.firstLabel c g m how) fun _ => True := by
  unfold Learner.firstLabel
  split
  · exact yields_pure trivial
  · apply yields_bind (h.yields_loss within dated hg home how.score true how.retained)
    intro loss _
    exact yields_pure trivial

theorem Sound.yields_pick (how : Labelling) (ratio credit : Float) (room : Nat) {candidates : List Slot}
    (live : ∀ i ∈ candidates, i ∈ c.table.live) :
    Yields (Learner.pick c m how ratio credit room candidates) fun _ => True := by
  induction candidates generalizing credit room with
  | nil => exact yields_pure trivial
  | cons i rest ih =>
    have later := fun credit room => ih credit room fun j hj => live j (List.mem_cons_of_mem i hj)
    obtain ⟨s, hs, home⟩ := (h.strung.mem_live_iff i).mp (live i List.mem_cons_self)
    unfold Learner.pick
    rw [hs]
    dsimp only
    split
    · apply yields_bind (h.yields_firstLabel within dated hs home how)
      intro label _
      apply yields_bind ((within.table i s hs).yields_features dated.time)
      intro features _
      apply yields_bind (later _ _)
      intro more _
      exact yields_pure trivial
    · exact later _ _

end Contents

namespace Cache
variable {μ : Type} [Regressor μ] {c : Cache μ} (h : c.contents.Sound) (within : c.contents.Within n)
  (dated : c.moment.Dated)
include h within dated

theorem yields_utilityOf {i : Slot} {s : Segment} (hs : c.contents.table.get? i = some s)
    (home : s.bucket ≠ quarantine) : Yields (c.utilityOf i s) fun _ => True := by
  unfold utilityOf
  split
  · apply yields_bind ((within.table i s hs).yields_features dated.time)
    intro features _
    exact yields_pure trivial
  · apply yields_bind (h.yields_loss within dated hs home _ _ _)
    intro loss _
    exact yields_pure trivial

theorem yields_appraise : Yields c.appraise fun _ => True := by
  unfold appraise
  refine yields_bind (yields_mapM_true fun i hi => ?_) fun utilities _ => yields_pure trivial
  obtain ⟨s, hs, home⟩ := (h.strung.mem_live_iff i).mp hi
  rw [hs]
  apply yields_bind (yields_utilityOf h within dated hs home)
  intro utility _
  exact yields_pure trivial

theorem yields_rankedTable : Yields c.rankedTable fun _ => True := by
  have grown := (Table.Settled.refl h.strung h.ranked).growRanking
  unfold rankedTable
  generalize c.contents.table.growRanking = p at grown ⊢
  obtain ⟨wider, table⟩ := p
  dsimp only at grown ⊢
  split
  · have ranged : Contents.Within n { c.contents with table } :=
      ⟨within.table.carried grown.carried, within.live⟩
    have sound := h.carried grown.strung grown.ranked grown.carried
    apply yields_bind (yields_appraise (c := { c with contents := { c.contents with table } }) sound
      ranged dated)
    intro b _
    exact yields_pure trivial
  · exact yields_pure trivial

theorem yields_choose : Yields c.choose fun _ => True := by
  unfold choose
  dsimp only
  cases c.selection with
  | learned =>
    dsimp only
    apply yields_bind (yields_rankedTable h within dated)
    intro table _
    exact yields_pure trivial
  | _ => exact yields_pure trivial

omit [Regressor μ] in
theorem yields_snapshot : Yields c.snapshot fun _ => True := by
  unfold snapshot Learner.snapshot
  rw [bind_assoc]
  have picked := h.yields_pick within dated c.labelling
    (Floating.max (Floating.ofNat c.contents.table.inUse / Floating.ofNat c.learner.maxRows) 1) 0
    (c.learner.maxRows - c.learner.samples.size) fun i hi => c.contents.table.candidates_sublist.subset hi
  apply yields_bind picked
  intro picked _
  exact yields_pure trivial

end Cache
end CacheReplay.GLCache
