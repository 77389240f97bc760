import CacheReplay.Proofs.GLCache.Invariants
import CacheReplay.Proofs.GLCache.Compaction

set_option autoImplicit false

namespace CacheReplay.GLCache
open Regression

/-- A relation between a table and what any of the steps makes of it. -/
structure Routine (R : Table → Table → Prop) : Prop where
  refl : ∀ a, R a a
  trans : ∀ {a b c}, R a b → R b c → R a c
  modify : ∀ (a : Table) (i : Slot) {f : Segment → Segment},
    (∀ s, a.get? i = some s → (f s).rank = s.rank) → R a (a.modify i f)
  append : ∀ (a : Table) (i : Slot), R a (a.append i)
  insertBefore : ∀ (a : Table) (k : Nat) (anchor i : Slot), R a (a.insertBefore k anchor i)
  unlink : ∀ (a : Table) (i : Slot), Settles .any (a.unlink i) (R a)
  clearRank : ∀ (a : Table) (i : Slot), R a (a.clearRank i)
  allocate : ∀ (a : Table) (k : Nat) (time now : Int),
    Settles .any (a.allocate k time now) fun p => R a p.2
  remove : ∀ (a : Table) (i : Slot), R a { a with segments := (a.segments.remove i).2 }
  emptied : ∀ a : Table, R a { a.modifyBucket quarantine fun _ => .empty with training := 0 }

namespace Merging
variable (g : Merging)

theorem settles_sift_table (sampled : Bool) (i : Slot) :
    Settles .any (g.sift sampled i) fun p => p.2.contents.table = g.contents.table := by
  have moved : ∀ (h : Merging) (r : Record ObjectTag),
      Settles .any (h.move i r) fun h' => h'.contents.table = h.contents.table := by
    intro h r
    apply settles_bind (settles_any _)
    intro doubled _
    apply settles_bind (settles_any _)
    intro bytes _
    exact settles_bind (settles_any _) fun keptBytes _ => settles_pure rfl
  unfold sift
  dsimp only
  split
  · exact settles_pure rfl
  · split
    · exact settles_bind (moved _ _) fun h same => settles_pure same
    · refine settles_bind (settles_bind (settles_any _) fun account _ =>
        settles_bind (settles_any _) fun gone _ => settles_pure ?_)
        fun d (same : d.table = g.contents.table) => settles_pure same
      rfl

theorem settles_siftAll_table (sampled : Bool) (objects : List Slot) :
    Settles .any (siftAll sampled objects g) fun p => p.2.contents.table = g.contents.table := by
  induction objects generalizing g with
  | nil => exact settles_pure rfl
  | cons i rest ih =>
    apply settles_bind (g.settles_sift_table sampled i)
    intro p same
    exact settles_bind (ih p.2) fun q kept => settles_pure (kept.trans same)

end Merging

structure Cache.Follows {μ : Type} (R : Table → Table → Prop) (c d : Cache μ) : Prop where
  table : R c.contents.table d.contents.table
  turn : d.turn = c.turn
  config : d.config = c.config

theorem Cache.settles_countHit_rank (s : Segment) (wasActive : Bool) (time : Int) :
    Settles .any (countHit s wasActive time) fun u => u.rank = s.rank := by
  apply settles_bind (settles_any _)
  intro windows _
  dsimp only
  split
  · exact settles_ok_bind (settles_pure rfl)
  · exact settles_bind (settles_any _) fun active _ => settles_pure rfl

namespace Routine
variable {R : Table → Table → Prop} (h : Routine R)
include h

section contents

theorem free (a : Table) (i : Slot) : Settles .any (a.free i) (R a) := by
  apply settles_bind (h.unlink (a.clearRank i) i)
  intro b unlinked
  exact settles_pure (h.trans (h.clearRank a i) (h.trans unlinked (h.remove b i)))

theorem retire (a : Table) (i : Slot) (now : Int) : Settles .any (a.retire i now) (R a) := by
  apply settles_bind (h.unlink (a.clearRank i) i)
  intro b unlinked
  have moved := h.modify b i (f := fun s => { s with bucket := quarantine, labelledFrom := now, label := 0 })
    fun _ _ => rfl
  exact settles_pure (h.trans (h.clearRank a i) (h.trans unlinked (h.trans moved (h.append _ i))))

variable (c : Contents)

theorem retireOrFree (i : Slot) (ghosts : List Slot) (m : Moment) :
    Settles .any (c.retireOrFree i ghosts m) fun d => R c.table d.table := by
  unfold Contents.retireOrFree
  dsimp only
  split
  · apply settles_bind (h.retire _ i m.now)
    intro table retired
    refine settles_pure (h.trans ?_ retired)
    exact h.modify c.table i fun _ _ => rfl
  · exact settles_bind (h.free c.table i) fun table freed => settles_pure freed

theorem evictSegment (i : Slot) (m : Moment) :
    Settles .any (c.evictSegment i m) fun p => R c.table p.2.table := by
  unfold Contents.evictSegment
  split
  · exact settles_pure (h.refl _)
  · have taken := h.modify c.table i (f := fun s => { s with objects := #[] }) fun _ _ => rfl
    have idle := h.modify (c.table.modify i fun s => { s with objects := #[] }) i
      (f := fun s => { s with active := 0 }) fun _ _ => rfl
    apply settles_bind (Contents.settles_dropAll_table _ _ _)
    intro p same
    apply settles_bind (h.retireOrFree p.2.2 i p.2.1 m)
    intro d gone
    rw [same] at gone
    exact settles_pure (h.trans taken (h.trans idle gone))

theorem unquarantined : R c.table c.unquarantined.table := by
  have freed : Settles .any ((c.table.chainOf quarantine).foldlM Contents.freeQuarantined c)
      fun d => R c.table d.table :=
    settles_foldlM (h.refl _) fun d before i _ =>
      settles_bind (settles_any _) fun store _ => settles_pure (h.trans before (h.remove d.table i))
  have cleared : Settles .any c.clearQuarantine fun d => R c.table d.table :=
    settles_bind freed fun d before => settles_pure (h.trans before (h.emptied _))
  exact Contents.unquarantined_of (h.refl c.table) cleared

theorem absorb (g : Merging) (parent : Slot) (m : Moment) :
    Settles .any (g.absorb parent m) fun d => R g.contents.table d.contents.table := by
  unfold Merging.absorb
  split
  · exact settles_pure (h.refl _)
  · have taken := h.modify g.contents.table parent (f := fun s => { s with objects := #[] }) fun _ _ => rfl
    apply settles_bind (Merging.settles_siftAll_table _ _ _)
    intro p same
    apply settles_bind (h.retireOrFree p.2.contents parent p.1 m)
    intro d gone
    rw [same] at gone
    exact settles_pure (h.trans taken gone)

theorem openTarget (parents : List Slot) (m : Moment) :
    Settles .any (c.openTarget parents m) fun p => R c.table p.2.table := by
  apply settles_bind (settles_any _)
  intro bucket _
  apply settles_bind (h.allocate c.table bucket m.time m.now)
  intro p made
  apply settles_bind (settles_any _)
  intro merges _
  have rated := h.modify p.2 p.1
    (f := fun s => { s with rates := Contents.meanRates (parents.filterMap c.table.get?) parents.length, merges })
    fun _ _ => rfl
  apply settles_pure
  dsimp only
  split
  · exact h.trans made (h.trans rated (h.insertBefore _ bucket _ _))
  · exact h.trans made rated

theorem merge (parents : List Slot) (scores : List Float) (cutoff : Float) (m : Moment) :
    Settles .any (c.merge parents scores cutoff m) fun p => R c.table p.2.table := by
  apply settles_bind (h.openTarget c parents m)
  intro p opened
  have absorbed : Settles .any (parents.foldlM (fun g parent => Merging.absorb g parent m)
      ⟨p.2, p.1, cutoff, scores, #[], 0, 0, 0⟩) fun g => R c.table g.contents.table := by
    apply settles_foldlM
    · exact opened
    · exact fun g before parent _ => (h.absorb g parent m).mono fun d after => h.trans before after
  apply settles_bind absorbed
  intro g moved
  exact settles_pure (h.trans moved (h.modify _ p.1 fun _ _ => rfl))

end contents

section cache
variable {μ : Type} (c : Cache μ)

theorem refl_follows : c.Follows R c := ⟨h.refl _, rfl, rfl⟩

variable {c} in
theorem trans_follows {d e : Cache μ} (first : c.Follows R d) (second : d.Follows R e) : c.Follows R e :=
  ⟨h.trans first.table second.table, second.turn.trans first.turn, second.config.trans first.config⟩

theorem creditSegment (segment : Slot) (size : Nat) :
    Settles .any (c.creditSegment segment size) fun d => c.Follows R d := by
  have credited : ∀ (l : Learner μ) (a : Table) (now : Int) (how : Labelling),
      Settles .any (l.credit a segment size now how) fun q => R a q.2 := by
    intro l a now how
    unfold Learner.credit
    split
    · exact settles_pure (h.refl a)
    · exact settles_pure (h.refl a)
    · have skipped : ∀ (skip : Bool) (n : Nat),
          R a (if skip = true then a.modify segment fun s => { s with skipped := n } else a) := by
        intro skip n
        split
        · exact h.modify a segment fun _ _ => rfl
        · exact h.refl a
      dsimp only
      split
      · exact settles_pure (skipped _ _)
      · apply settles_bind (settles_any _)
        intro value _
        have labelled := fun (b : Table) (label : Float) => h.modify b segment
          (f := fun s => { s with label }) fun _ _ => rfl
        split
        · exact settles_pure (h.trans (skipped _ _) (labelled _ _))
        · exact settles_pure (h.trans (skipped _ _) (labelled _ _))
  unfold Cache.creditSegment
  split
  · exact settles_bind (credited _ _ _ _) fun q done => settles_pure ⟨done, rfl, rfl⟩
  · exact settles_pure (h.refl_follows c)

theorem creditGhost (id : Nat) : Settles .any (c.creditGhost id) fun d => c.Follows R d := by
  unfold Cache.creditGhost
  split
  · exact settles_pure (h.refl_follows c)
  · dsimp only
    split
    · apply settles_bind (h.creditSegment c _ _)
      intro d done
      exact settles_bind (settles_any _) fun _ _ => settles_pure ⟨done.table, done.turn, done.config⟩
    · exact settles_ok_bind (settles_bind (settles_any _) fun _ _ => settles_pure ⟨h.refl _, rfl, rfl⟩)

theorem hit (req : Request) (i : Slot) (r : Record ObjectTag) :
    Settles .any (c.hit req i r) fun d => c.Follows R d := by
  unfold Cache.hit
  dsimp only
  cases hs : c.contents.table.get? r.tag.segment with
  | none => exact settles_pure ⟨h.refl _, rfl, rfl⟩
  | some s =>
    apply settles_bind (Cache.settles_countHit_rank s _ _)
    intro counted rank
    have replaced := h.modify c.contents.table r.tag.segment (f := fun _ => counted) fun u hu => by
      rw [hs] at hu
      cases hu
      exact rank
    apply (h.creditSegment _ _ _).mono
    exact fun d done => ⟨h.trans replaced done.table, done.turn, done.config⟩

theorem check (req : Request) (update : Bool) :
    Settles .any (c.check req update) fun p => c.Follows R p.2 := by
  unfold Cache.check
  split
  · split
    · exact settles_bind (h.creditGhost c req.id) fun d done => settles_pure done
    · exact settles_pure (h.refl_follows c)
  · split
    · split
      · exact settles_pure (h.refl_follows c)
      · apply settles_bind (h.hit c req _ _)
        intro d done
        exact settles_bind (h.creditGhost d req.id) fun e more =>
          settles_pure (h.trans_follows done more)
    · exact settles_pure (h.refl_follows c)

theorem openSegment (k : Nat) : Settles .any (c.openSegment k) fun p => R c.contents.table p.2 := by
  unfold Cache.openSegment
  dsimp only
  split
  · exact settles_pure (h.refl _)
  · have begun : ∀ b : Table, R c.contents.table b →
        Settles .any (b.allocate k c.account.clock c.account.now >>= fun p => pure (p.1, p.2.append p.1))
          fun p => R c.contents.table p.2 := by
      intro b stamped
      apply settles_bind (h.allocate b k _ _)
      intro p made
      exact settles_pure (h.trans stamped (h.trans made (h.append p.2 p.1)))
    cases (c.contents.table.bucket k).chain.back with
    | none => exact begun _ (h.refl _)
    | some i => exact begun _ (h.modify _ i fun _ _ => rfl)

theorem insert (req : Request) : Settles .any (c.insert req) fun p => c.Follows R p.2 := by
  apply settles_bind (h.openSegment c _)
  intro p opened
  apply settles_bind (settles_any _)
  intro stored _
  apply settles_bind (settles_any _)
  intro footprint _
  apply settles_bind (settles_any _)
  intro bytes _
  have listed := h.modify p.2 p.1 (f := fun s => { s with objects := s.objects.push stored.1, bytes })
    fun _ _ => rfl
  exact settles_bind (settles_any _) fun account _ => settles_pure ⟨h.trans opened listed, rfl, rfl⟩

theorem removeObject (id : Nat) : Settles .any (c.remove id) fun p => c.Follows R p.2 := by
  unfold Cache.remove
  split
  · exact settles_pure (h.refl_follows c)
  · rename_i i _
    apply settles_bind (settles_any _)
    intro gone _
    split
    · exact settles_pure (h.refl_follows c)
    · rename_i r store
      have finish : ∀ table : Table, R c.contents.table table →
          Settles .any (do
            let account ← c.account.release r.size
            pure (true, { c with contents := ⟨table, store, account⟩ }) : Checked (Bool × Cache μ))
            fun p => c.Follows R p.2 := by
        intro table done
        apply settles_bind (settles_any _)
        intro account _
        exact settles_pure ⟨done, rfl, rfl⟩
      apply settles_bind (settles_any _)
      intro footprint _
      dsimp only
      split
      · exact settles_ok_bind (finish _ (h.refl _))
      · have unlisted := fun bytes active => h.modify c.contents.table r.tag.segment
          (f := fun s => { s with objects := s.objects.filter (· != i), bytes, active }) fun _ _ => rfl
        apply settles_bind (settles_any _)
        intro bytes _
        split
        · exact settles_bind (settles_any _) fun active _ => finish _ (unlisted _ _)
        · exact settles_ok_bind (finish _ (unlisted _ _))

theorem evictSingle (i : Slot) : Settles .any (c.evictSingle i) fun d => c.Follows R d := by
  apply settles_bind (settles_any _)
  intro notice _
  apply settles_bind (h.evictSegment c.contents i c.moment)
  intro q done
  exact settles_bind (settles_any _) fun tally _ => settles_pure ⟨done, rfl, rfl⟩

theorem evictRun (run : List Slot) : Settles .any (c.evictRun run) fun d => c.Follows R d := by
  apply settles_bind (settles_any _)
  intro exact _
  apply settles_bind (settles_any _)
  intro bar _
  apply settles_bind (h.merge c.contents run _ bar c.moment)
  intro q done
  exact settles_bind (settles_any _) fun tally _ => settles_pure ⟨done, rfl, rfl⟩

variable {c} [Regressor μ]

theorem taught {d : Cache μ} (taught : Cache.Taught c d) : c.Follows R d := by
  have sampled : ∀ (b : Cache μ) (picked : List (Slot × Sample)), b.Follows R (b.sampling picked) := by
    intro b picked
    have marked : ∀ (now : Int) (l : List Slot) (row : Nat) (a : Table),
        R a (Learner.markAll now row l a) := by
      intro now l
      induction l with
      | nil => exact fun row a => h.refl a
      | cons i rest ih =>
        intro row a
        refine h.trans ?_ (ih (row + 1) (Learner.mark a i row now))
        exact h.modify a i fun _ _ => rfl
    have unsampled : R b.contents.table (b.contents.table.live.foldl
        (fun t i => t.modify i Learner.unsample) b.contents.table) :=
      List.foldlRecOn (motive := R b.contents.table) _ _ (h.refl _)
        fun a before i _ => h.trans before (h.modify a i fun _ _ => rfl)
    exact ⟨h.trans unsampled (marked _ _ _ _), rfl, rfl⟩
  rcases taught with ⟨-, rfl⟩ | ⟨-, b, picked, prepared, -, rfl⟩
  · exact h.refl_follows _
  · refine h.trans_follows ?_ (sampled b picked)
    cases prepared with
    | first _ => exact ⟨h.refl _, rfl, rfl⟩
    | trained _ _ => exact ⟨h.unquarantined c.contents, rfl, rfl⟩

end cache
end Routine
end CacheReplay.GLCache
