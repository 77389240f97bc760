import CacheReplay.Proofs.GLCache.Operations

set_option autoImplicit false

namespace CacheReplay.GLCache

variable {μ : Type} {t : Tolerance}

theorem Learner.settles_credit_get? (l : Learner μ) (a : Table) (q : Slot) (size : Nat) (now : Int)
    (how : Labelling) :
    Settles .any (l.credit a q size now how) fun r => ∀ p, p ≠ q → r.2.get? p = a.get? p := by
  have modified : ∀ (b : Table) (f : Segment → Segment), (∀ p, p ≠ q → b.get? p = a.get? p) →
      ∀ p, p ≠ q → (b.modify q f).get? p = a.get? p := by
    intro b f same p apart
    rw [Table.get?_modify, if_neg (Ne.symm apart), same p apart]
  unfold Learner.credit
  split
  · exact settles_pure fun _ _ => rfl
  · exact settles_pure fun _ _ => rfl
  · rename_i s _ _
    have skipped : ∀ p, p ≠ q → (if how.skip.isSome = true then
        a.modify q fun g => { g with skipped := s.skipped + 1 } else a).get? p = a.get? p := by
      split
      · exact modified a _ fun _ _ => rfl
      · exact fun _ _ => rfl
    dsimp only
    split
    · exact settles_pure skipped
    · refine settles_bind (settles_any _) fun value _ => ?_
      split
      · exact settles_pure (modified _ _ skipped)
      · exact settles_pure (modified _ _ skipped)

namespace Cache
open Learner

/-- Whatever is credited, to a segment or for a request, changes the labels of its own rows and no others. -/
structure CreditsOwnRows (c : Cache μ) : Prop where
  segment : ∀ (segment : Slot) (size : Nat), Settles .arithmetic (c.creditSegment segment size) fun d =>
    c.learner.Relabelled (fun n => c.contents.table.rowOf? segment = some n) d.learner ∧
      Credited segment size c d
  request : ∀ (req : Request) (update : Bool), Settles .arithmetic (c.check req update) fun p =>
    c.learner.Relabelled (c.rowsOf req.id) p.2.learner ∧
      (update = true → ∀ i r, c.contents.store.get? i = some r → r.id = req.id →
        Credited r.tag.segment r.size c p.2)

/-- No two segments have the same row. -/
def Unshared (c : Cache μ) : Prop := ∀ p q n, c.contents.table.rowOf? p = some n →
  c.contents.table.rowOf? q = some n → p = q

/-- Neither a segment nor the label of its row changes. -/
structure Spares (p : Slot) (c d : Cache μ) : Prop where
  segment : d.contents.table.get? p = c.contents.table.get? p
  label : ∀ n, c.contents.table.rowOf? p = some n →
    d.learner.samples.labels[n]? = c.learner.samples.labels[n]?

section
variable {p : Slot} {size : Nat} {c d e : Cache μ}

theorem Spares.rowOf?_eq (h : c.Spares p d) : d.contents.table.rowOf? p = c.contents.table.rowOf? p := by
  rw [Table.rowOf?, Table.sample?, h.segment, Table.rowOf?, Table.sample?]

/-- What comes later spares the segment and its row. -/
theorem Credited.before (h : Credited p size c d)
    (sample? : d.contents.table.sample? = c.contents.table.sample?) (k : d.Spares p e) :
    Credited p size c e := by
  intro s n hs row
  obtain ⟨u, hu, graded⟩ := h s n hs row
  have label := k.label n (by rw [Table.rowOf?, sample?]; exact row)
  refine ⟨u, k.segment.trans hu, fun passed => ?_, fun counted => ?_⟩
  · exact ⟨(graded.passed passed).1, label.trans (graded.passed passed).2⟩
  · exact ⟨(graded.added counted).1, label.trans (graded.added counted).2⟩

theorem Credited.after (h : c.Spares p d) (config : d.config = c.config) (account : d.account = c.account)
    (k : Credited p size d e) : Credited p size c e := by
  have how : d.labelling = c.labelling := by
    rw [labelling, labelling, utilityRetained, utilityRetained, config]
  intro s n hs row
  obtain ⟨u, hu, graded⟩ := k s n (h.segment.trans hs) (h.rowOf?_eq.trans row)
  rw [how, account] at graded
  have label := h.label n row
  refine ⟨u, hu, fun passed => ?_, fun counted => ?_⟩
  · exact ⟨(graded.passed passed).1, (graded.passed passed).2.trans label⟩
  · rw [← label]
    exact graded.added counted

end

theorem settles_creditSegment_get? (c : Cache μ) (q : Slot) (size : Nat) :
    Settles .any (c.creditSegment q size) fun d =>
      ∀ p, p ≠ q → d.contents.table.get? p = c.contents.table.get? p := by
  unfold creditSegment
  split
  · exact settles_bind (settles_credit_get? ..) fun credited same => settles_pure same
  · exact settles_pure fun _ _ => rfl

theorem Sound.segments_ne {c : Cache μ} (h : c.Sound) {i j : Slot} {r g : Record ObjectTag}
    (hr : c.contents.store.live? i = some r) (hg : c.contents.store.get? j = some g)
    (ghost : g.ghost = true) : r.tag.segment ≠ g.tag.segment := by
  obtain ⟨s, hs, alive, -⟩ := h.contents.segment_of_live hr
  obtain ⟨u, hu, home, -⟩ := Table.exists_of_mem_ghostSlots (h.contents.ledger.ghost j g hg ghost)
  intro same
  rw [same] at hs
  cases hs.symm.trans hu
  exact alive home

section
variable {c : Cache μ} (unshared : c.Unshared)
include unshared

theorem Relabelled.spares {q : Slot} {d : Cache μ}
    (relabelled : c.Relabelled (fun n => c.contents.table.rowOf? q = some n) d)
    (get : ∀ p, p ≠ q → d.contents.table.get? p = c.contents.table.get? p) {p : Slot} (apart : p ≠ q) :
    c.Spares p d :=
  ⟨get p apart, fun n hp => relabelled.learner.others n fun hq => apart (unshared p q n hp hq)⟩

variable (h : c.Sound)
include h

theorem Sound.settles_creditGhost_credited (id : Nat) : Settles t (c.creditGhost id) fun d =>
    (∀ j g, c.contents.store.get? j = some g → g.id = id → g.ghost = true →
      Credited g.tag.segment g.size c d) ∧
    ∀ p, (∀ j g, c.contents.store.get? j = some g → g.id = id → g.ghost = true → p ≠ g.tag.segment) →
      c.Spares p d := by
  have ghosts := h.contents.ledger.consistent.findGhost?_eq_some_iff id
  unfold creditGhost
  cases found : c.contents.store.findGhost? id with
  | none =>
    refine settles_pure ⟨fun j g hg hid ghost => ?_, fun p _ => ⟨rfl, fun _ _ => rfl⟩⟩
    cases found.symm.trans ((ghosts j).mpr ⟨g, hg, hid, ghost⟩)
  | some i =>
    obtain ⟨r, hr, hid, ghost⟩ := (ghosts i).mp found
    dsimp only
    rw [hr]
    refine settles_bind ((h.settles_creditSegment r.tag.segment r.size).also
      (c.settles_creditSegment_get? r.tag.segment r.size)) fun d credited => ?_
    obtain ⟨⟨sound, -, -, -, relabelled, credit⟩, get⟩ := credited
    rw [sound.contents.ledger.consistent.delete_eq]
    refine settles_ok_bind (settles_pure ⟨fun j g hg hid ghost => ?_, fun p away => ?_⟩)
    · cases found.symm.trans ((ghosts j).mpr ⟨g, hg, hid, ghost⟩)
      cases hr.symm.trans hg
      exact credit
    · have spares := relabelled.spares unshared get (away i r hr hid ghost)
      exact ⟨spares.segment, spares.label⟩

theorem Sound.settles_hit_spares (req : Request) {i : Slot} {r : Record ObjectTag}
    (hr : c.contents.store.live? i = some r) : Settles t (c.hit req i r) fun d =>
      ∀ p, p ≠ r.tag.segment → c.Spares p d := by
  have get : Settles .any (c.hit req i r) fun d =>
      ∀ p, p ≠ r.tag.segment → d.contents.table.get? p = c.contents.table.get? p := by
    unfold hit
    dsimp only
    split
    · exact settles_pure fun _ _ => rfl
    · refine settles_bind (settles_any _) fun u _ => ?_
      refine (settles_creditSegment_get? _ r.tag.segment r.size).mono fun d same p apart => ?_
      exact (same p apart).trans ((Table.get?_modify ..).trans (if_neg (Ne.symm apart)))
  refine ((h.settles_hit req hr).also get).mono fun d hit p apart => ?_
  obtain ⟨⟨-, -, -, -, relabelled, -⟩, get⟩ := hit
  exact relabelled.spares unshared get apart

/-- A request credits every record of its object, in the label of the row of the segment that it names. -/
theorem Sound.settles_check_credited (req : Request) : Settles t (c.check req true) fun p =>
    ∀ i r, c.contents.store.get? i = some r → r.id = req.id → Credited r.tag.segment r.size c p.2 := by
  unfold check
  cases found : c.contents.store.find? req.id with
  | none =>
    dsimp only
    rw [if_pos rfl]
    refine settles_bind (h.settles_creditGhost_credited unshared req.id) fun d credited => ?_
    refine settles_pure fun i r hr hid => credited.1 i r hr hid ?_
    by_contra live
    rw [Bool.not_eq_true] at live
    cases found.symm.trans ((h.contents.ledger.consistent.find?_eq_some_iff req.id i).mpr ⟨r, hr, hid, live⟩)
  | some i =>
    obtain ⟨r, hr, hid, live⟩ := (h.contents.ledger.consistent.find?_eq_some_iff req.id i).mp found
    have alive := (c.contents.store.live?_eq_some_iff i r).mpr ⟨hr, live⟩
    dsimp only
    rw [if_pos rfl, hr]
    refine settles_bind ((h.settles_hit req alive).and (h.settles_hit_spares unshared req alive))
      fun d hit => ?_
    obtain ⟨⟨sound, account, -, store, relabelled, credit⟩, spares⟩ := hit
    have rows : d.contents.table.rowOf? = c.contents.table.rowOf? :=
      funext fun p => by rw [Table.rowOf?, Table.rowOf?, relabelled.sample?]
    have unshared' : d.Unshared := by rwa [Unshared, rows]
    refine settles_bind (sound.settles_creditGhost_credited unshared' req.id) fun e credited => ?_
    refine settles_pure fun j u hu hid' => ?_
    have ghosts : ∀ k, d.contents.store.get? k = if i = k then (c.contents.store.get? k).map
        (marked req c.account.now (c.contents.table.sample? r.tag.segment).isSome) else
        c.contents.store.get? k := fun k => by rw [store, Store.get?_modify]
    cases ghost : u.ghost with
    | false =>
      cases h.contents.ledger.consistent.live_unique hr hu live ghost (hid.trans hid'.symm)
      cases hr.symm.trans hu
      refine credit.before relabelled.sample? (credited.2 _ fun k g hg hid ghost => ?_)
      rw [ghosts] at hg
      split at hg
      · rename_i same
        subst same
        rw [hr] at hg
        cases hg
        cases live.symm.trans ghost
      · exact h.segments_ne alive hg ghost
    | true =>
      have other : i ≠ j := by
        rintro rfl
        cases hr.symm.trans hu
        cases live.symm.trans ghost
      have same : d.contents.store.get? j = some u := by rw [ghosts, if_neg other, hu]
      exact (credited.1 j u same hid' ghost).after
        (spares _ (Ne.symm (h.segments_ne alive hu ghost))) relabelled.config account

theorem Sound.creditsOwnRows : c.CreditsOwnRows where
  segment segment size := by
    refine (h.settles_creditSegment segment size).mono fun d credited => ?_
    obtain ⟨-, -, -, -, relabelled, credit⟩ := credited
    exact ⟨relabelled.learner, credit⟩
  request req update := by
    have looked := (h.settles_check (t := .arithmetic) req update).mono fun p looked =>
      looked.relabelled.learner
    cases update with
    | false => exact looked.mono fun p relabelled => ⟨relabelled, nofun⟩
    | true =>
      refine (looked.and (h.settles_check_credited unshared req)).mono fun p both => ?_
      exact ⟨both.1, fun _ => both.2⟩

end
end Cache
end CacheReplay.GLCache
