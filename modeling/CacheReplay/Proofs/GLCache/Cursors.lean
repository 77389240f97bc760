import CacheReplay.Proofs.GLCache.Housekeeping
import CacheReplay.Proofs.Observation

set_option autoImplicit false

namespace CacheReplay.GLCache
open Regression

namespace Table

def partway (a : Table) : Set Nat := {k | (a.bucket k).cursor.isSome}

theorem mem_partway {a : Table} {k : Nat} : k ∈ a.partway ↔ (a.bucket k).cursor.isSome := .rfl

theorem partway_of_buckets {a b : Table} (buckets : b.buckets = a.buckets) : b.partway = a.partway := by
  simp only [partway, bucket, buckets]

theorem bucket_modifyBucket_of_ne (a : Table) {k m : Nat} (f : Bucket → Bucket) (apart : k ≠ m) :
    (a.modifyBucket k f).bucket m = a.bucket m := by
  simp only [bucket, modifyBucket, Array.getElem?_modify, if_neg apart]

theorem bucket_modifyBucket_self (a : Table) (k : Nat) (f : Bucket → Bucket) :
    (a.modifyBucket k f).bucket k = .empty ∨ (a.modifyBucket k f).bucket k = f (a.bucket k) := by
  simp only [bucket, modifyBucket, Array.getElem?_modify, if_true]
  cases a.buckets[k]? with
  | none => exact .inl rfl
  | some b => exact .inr rfl

theorem partway_modifyBucket (a : Table) (k : Nat) {f : Bucket → Bucket}
    (hf : ∀ b, (f b).cursor.isSome → b.cursor.isSome) : (a.modifyBucket k f).partway ⊆ a.partway := by
  intro m hm
  rw [mem_partway] at hm ⊢
  by_cases e : k = m
  · subst e
    rcases a.bucket_modifyBucket_self k f with empty | changed
    · rw [empty] at hm
      cases hm
    · rw [changed] at hm
      exact hf _ hm
  · rw [bucket_modifyBucket_of_ne a f e] at hm
    exact hm

section
variable (a : Table)

theorem partway_countIn (k : Nat) : (a.countIn k).partway = a.partway := by
  unfold countIn
  split <;> rfl

theorem partway_append (i : Slot) : (a.append i).partway ⊆ a.partway := by
  unfold append
  cases a.get? i with
  | none => exact subset_rfl
  | some s =>
    dsimp only
    rw [partway_countIn]
    exact partway_modifyBucket { a with segments := _ } s.bucket fun _ set => set

theorem partway_insertBefore (k : Nat) (anchor i : Slot) :
    (a.insertBefore k anchor i).partway ⊆ a.partway := by
  unfold insertBefore
  cases a.get? anchor with
  | none => exact subset_rfl
  | some s =>
    dsimp only
    rw [partway_countIn]
    exact partway_modifyBucket { a with segments := _ } k fun _ set => set

theorem partway_unlink (i : Slot) : Settles .any (a.unlink i) fun b => b.partway ⊆ a.partway := by
  unfold unlink
  cases a.get? i with
  | none => exact settles_pure subset_rfl
  | some s =>
    apply settles_bind (settles_any _)
    intro p _
    have counted : ∀ b : Table, Settles .any (b.countOut s.bucket) fun d => d.partway = b.partway := by
      intro b
      unfold countOut
      split <;> exact settles_bind (settles_any _) fun _ _ => settles_pure rfl
    apply (counted _).mono
    intro d same
    rw [same]
    refine partway_modifyBucket { a with segments := _ } s.bucket fun b set => ?_
    dsimp only at set
    split at set
    · rename_i here
      rw [here]
      rfl
    · exact set

theorem partway_clearRank (i : Slot) : (a.clearRank i).partway = a.partway :=
  partway_of_buckets (a.clearRank_buckets i)

theorem partway_allocate (k : Nat) (time now : Int) :
    Settles .any (a.allocate k time now) fun p => p.2.partway = a.partway :=
  settles_bind (settles_any _) fun _ _ => settles_pure rfl

theorem partway_rankLast (rank : Nat) (i : Slot) : (a.rankLast rank i).partway ⊆ a.partway := by
  unfold rankLast
  cases a.get? i with
  | none => exact subset_rfl
  | some s =>
    dsimp only
    split
    · exact partway_modifyBucket (Table.modify _ _ _) s.bucket fun _ set => set
    · exact partway_modifyBucket (a.modify _ _) s.bucket fun _ set => set

theorem partway_rankFrom (rank : Nat) (order : List Slot) : (rankFrom rank order a).partway ⊆ a.partway := by
  induction order generalizing rank a with
  | nil => exact subset_rfl
  | cons i rest ih => exact (ih _ (rank + 1)).trans (a.partway_rankLast rank i)

theorem partway_rerank : a.rerank.partway ⊆ a.partway := by
  refine (partway_rankFrom _ 0 _).trans fun k hk => ?_
  simp only [mem_partway, bucket, Array.getElem?_mapIdx] at hk ⊢
  cases e : a.buckets[k]? with
  | none =>
    rw [e] at hk
    exact hk
  | some b =>
    rw [e, Option.map_some, Option.getD_some] at hk
    split at hk <;> exact hk

theorem partway_growRanking : a.growRanking.2.partway = a.partway := by
  unfold growRanking
  split <;> rfl

end

/-- No operation but a choice gives a bucket a cursor. -/
theorem routine_partway : Routine fun a b => b.partway ⊆ a.partway where
  refl _ := subset_rfl
  trans first second := second.trans first
  modify _ _ _ _ := subset_rfl
  append a i := a.partway_append i
  insertBefore a k anchor i := a.partway_insertBefore k anchor i
  unlink a i := a.partway_unlink i
  clearRank a i := (a.partway_clearRank i).subset
  allocate a k time now := (a.partway_allocate k time now).mono fun _ same => same.subset
  remove _ _ := subset_rfl
  emptied a := a.partway_modifyBucket quarantine fun _ set => nomatch set

end Table

namespace Chooser

structure Unturned (c d : Chooser) : Prop where
  partway : d.table.partway ⊆ c.table.partway
  turn : d.turn = c.turn

theorem Unturned.refl (c : Chooser) : c.Unturned c := ⟨subset_rfl, rfl⟩

theorem Unturned.trans {c d e : Chooser} (h : c.Unturned d) (k : d.Unturned e) : c.Unturned e :=
  ⟨k.partway.trans h.partway, k.turn.trans h.turn⟩

/-- No bucket has a cursor but the one whose turn it is. -/
def InTurn (c : Chooser) : Prop := c.table.partway ⊆ {c.turn}

theorem InTurn.of_unturned {c d : Chooser} (h : c.InTurn) (unturned : c.Unturned d) : d.InTurn := by
  rw [InTurn, unturned.turn]
  exact unturned.partway.trans h

theorem partway_setCursor (c : Chooser) (k : Nat) (i : Option Slot) :
    (c.setCursor k i).table.partway ⊆ insert k c.table.partway := by
  intro m hm
  by_cases e : k = m
  · exact .inl e.symm
  · rw [Table.mem_partway, setCursor, Table.bucket_modifyBucket_of_ne _ _ e] at hm
    exact .inr hm

theorem partway_setCursor_none (c : Chooser) (k : Nat) :
    (c.setCursor k none).table.partway ⊆ c.table.partway \ {k} := by
  intro m hm
  have before : m ∈ c.table.partway := by
    refine c.table.partway_modifyBucket k (fun b set => ?_) hm
    cases set
  refine ⟨before, ?_⟩
  rintro rfl
  rw [Table.mem_partway, setCursor] at hm
  rcases c.table.bucket_modifyBucket_self m fun b => { b with cursor := none } with empty | changed
  · rw [empty] at hm
    cases hm
  · rw [changed] at hm
    cases hm

theorem unturned_oldest (c : Chooser) : c.Unturned c.oldest.2 := by
  unfold oldest
  split
  · exact .refl c
  · dsimp only
    split
    · exact ⟨subset_rfl, rfl⟩
    · exact ⟨(partway_setCursor_none _ _).trans Set.sdiff_subset, rfl⟩

theorem Unturned.orOldest {c : Chooser} {p : Option Choice × Chooser} (h : c.Unturned p.2) :
    c.Unturned (Chooser.orOldest p).2 := by
  unfold Chooser.orOldest
  split
  · exact h
  · exact h.trans (unturned_oldest p.2)

theorem InTurn.fifoRun {c : Chooser} (h : c.InTurn) (n tries : Nat) : (c.fifoRun n tries).2.InTurn := by
  have passed : ∀ c : Chooser, c.InTurn →
      InTurn { c.setCursor c.turn none with turn := nextTurn c.turn } := by
    intro c h k hk
    obtain ⟨before, apart⟩ := c.partway_setCursor_none c.turn hk
    exact absurd (h before) apart
  induction tries generalizing c with
  | zero => exact h.of_unturned (unturned_oldest c)
  | succ tries ih =>
    unfold Chooser.fifoRun
    dsimp only
    split
    · split
      · refine (c.partway_setCursor c.turn _).trans ?_
        exact Set.insert_subset rfl h
      · exact passed c h
    · exact ih (passed c h)

theorem unturned_takeRanked (rule : RankedRule) (c : Chooser) (i : Slot) :
    c.Unturned (c.takeRanked rule i).2 := by
  unfold takeRanked
  split
  · exact .refl c
  · refine ⟨?_, rfl⟩
    have cleared : ∀ run : List Slot, (run.foldl Table.clearRank c.table).buckets = c.table.buckets :=
      fun run => List.foldlRecOn (motive := fun b : Table => b.buckets = c.table.buckets) run _ rfl
        fun b same i _ => (b.clearRank_buckets i).trans same
    rw [← Table.partway_of_buckets (cleared _)]
    exact Table.partway_modifyBucket _ _ fun _ set => set

theorem unturned_giveUp (c : Chooser) (first : Slot) : c.Unturned (c.giveUp first).2 := by
  unfold giveUp
  split
  · exact .refl c
  · refine ⟨?_, rfl⟩
    refine (Table.partway_clearRank (c.table.modifyBucket _ _) first).subset.trans ?_
    exact c.table.partway_modifyBucket _ fun _ set => set

theorem unturned_setPosition (c : Chooser) (p : Option Nat) : c.Unturned (c.setPosition p) :=
  ⟨subset_rfl, rfl⟩

theorem unturned_search (rule : RankedRule) (left position : Nat) (first : Option Slot) (c : Chooser) :
    c.Unturned (c.search rule left position first).2 := by
  have stale : ∀ c : Chooser, c.Unturned (c.setPosition none).oldest.2 := fun c =>
    (c.unturned_setPosition none).trans (unturned_oldest _)
  induction left generalizing c position first with
  | zero => exact stale c
  | succ left ih =>
    unfold search
    split
    · exact stale c
    · exact ih (position + 1) first c
    · rename_i i _
      dsimp only
      split
      · exact (c.unturned_setPosition _).trans (unturned_takeRanked rule _ i)
      · split
        · exact c.unturned_giveUp _
        · have cleared : c.Unturned { c with table := c.table.clearRank i } :=
            ⟨(c.table.partway_clearRank i).subset, rfl⟩
          exact cleared.trans (ih _ _ _)

theorem unturned_rankedRun (rule : RankedRule) (c : Chooser) : c.Unturned (c.rankedRun rule).2 := by
  unfold rankedRun
  split
  · exact unturned_oldest c
  · exact unturned_search rule _ _ none c

end Chooser

namespace Cache
variable {μ : Type}

structure Unturned (c d : Cache μ) : Prop where
  partway : d.contents.table.partway ⊆ c.contents.table.partway
  turn : d.turn = c.turn
  config : d.config = c.config

def InTurn (c : Cache μ) : Prop :=
  c.config.selection ≠ some .weightedFifo → c.config.selection ≠ some .random →
    (c.chooser c.contents.table).InTurn

theorem InTurn.of_unturned {c d : Cache μ} (h : c.InTurn) (unturned : c.Unturned d) : d.InTurn := by
  intro weighted random
  rw [unturned.config] at weighted random
  exact (h weighted random).of_unturned ⟨unturned.partway, unturned.turn⟩

theorem Follows.unturned {c d : Cache μ} (h : c.Follows (fun a b => b.partway ⊆ a.partway) d) :
    c.Unturned d := ⟨h.table, h.turn, h.config⟩

section
variable [Regressor μ] {c : Cache μ}

omit [Regressor μ] in
theorem selection_prescribed {s : Selection} (chooses : c.selection = s) (fifo : s ≠ .fifo)
    (learned : s ≠ .learned) : c.config.selection = some s := by
  unfold selection at chooses
  split at chooses
  · rename_i given
    rw [given, chooses]
  · split at chooses
    · exact absurd chooses.symm fifo
    · exact absurd chooses.symm learned

theorem partway_rankedTable (c : Cache μ) :
    Settles .any c.rankedTable fun b => b.partway ⊆ c.contents.table.partway := by
  have appraised : ∀ d : Cache μ, Settles .any d.appraise fun b => b.buckets = d.contents.table.buckets := by
    intro d
    apply settles_bind (settles_any _)
    intro utilities _
    exact settles_pure (List.foldlRecOn
      (motive := fun b : Table => b.buckets = d.contents.table.buckets) utilities _ rfl
      fun _ same _ _ => same)
  unfold rankedTable
  dsimp only
  split
  · apply settles_bind (appraised _)
    intro b same
    apply settles_pure
    refine b.partway_rerank.trans ?_
    rw [Table.partway_of_buckets same]
    exact c.contents.table.partway_growRanking.subset
  · exact settles_pure c.contents.table.partway_growRanking.subset

theorem InTurn.settles_choose (h : c.InTurn) : Settles .any c.choose fun p => p.2.InTurn := by
  unfold choose
  dsimp only
  cases chooses : c.selection with
  | fifo =>
    apply settles_pure
    intro weighted random
    have ran := (h weighted random).fifoRun c.config.mergeCount (liveBuckets + 2)
    exact ran.of_unturned (Chooser.Unturned.refl _).orOldest
  | weightedFifo => exact settles_pure fun weighted _ => absurd (selection_prescribed chooses nofun nofun) weighted
  | random => exact settles_pure fun _ random => absurd (selection_prescribed chooses nofun nofun) random
  | learned =>
    apply settles_bind c.partway_rankedTable
    intro table sub
    apply settles_pure
    intro weighted random
    have started : (c.chooser c.contents.table).Unturned (c.chooser table) := ⟨sub, rfl⟩
    have ran := Chooser.unturned_rankedRun
      ⟨c.config.mergeCount, c.config.consecutive, c.config.fallbackFraction⟩ (c.chooser table)
    exact (h weighted random).of_unturned (started.trans ran.orOldest)

theorem InTurn.settles_evict (h : c.InTurn) : Settles .any c.evict fun p => p.2.InTurn := by
  apply settles_bind h.settles_choose
  rintro ⟨choice, d⟩ chosen
  dsimp only at chosen ⊢
  split
  · exact settles_pure chosen
  · exact settles_bind (Table.routine_partway.evictRun d _) fun e done =>
      settles_pure (chosen.of_unturned done.unturned)
  · exact settles_bind (Table.routine_partway.evictSingle d _) fun e done =>
      settles_pure (chosen.of_unturned done.unturned)

/-- Every operation keeps the configuration, and cursors to the bucket whose turn it is. -/
theorem keeps_inTurn (config : Config) : Keeps (.ofModel μ)
    (fun (c : Cache μ) id => ¬c.contents.store.caches id = true) Sound
    fun c => c.config = config ∧ c.InTurn where
  begun _ _ _ h := h
  check c req update sound h :=
    ((sound.settles_check req update).also (Table.routine_partway.check c req update)).mono fun _ done =>
      ⟨done.2.config.trans h.1, h.2.of_unturned done.2.unturned⟩
  evict c _ sound h := (sound.settles_evict.also h.2.settles_evict).mono fun _ done =>
    ⟨done.1.1.config.trans h.1, done.2⟩
  insert c req sound h missed room :=
    ((sound.settles_insert missed room).also (Table.routine_partway.insert c req)).mono fun _ done =>
      ⟨done.2.config.trans h.1, h.2.of_unturned done.2.unturned⟩
  remove c id sound h :=
    ((sound.settles_remove id).also (Table.routine_partway.removeObject c id)).mono fun _ done =>
      ⟨done.2.config.trans h.1, h.2.of_unturned done.2.unturned⟩
  settle c hit sound h := (sound.settles_teach Tolerance.allows_of_fit hit).mono fun d done => by
    obtain ⟨e, load, taught, rfl⟩ := done
    have unturned := (Table.routine_partway.taught taught).unturned
    have inTurn := h.2.of_unturned unturned
    exact ⟨unturned.config.trans h.1, inTurn⟩

omit [Regressor μ] in
theorem inTurn_ofConfig (capacity overhead : Nat) (config : Config) (model : μ) :
    (ofConfig capacity overhead config model).InTurn := by
  intro _ _ k hk
  simp only [ofConfig, Contents.empty, chooser, Table.mem_partway, Table.bucket, Table.empty,
    Array.getElem?_replicate] at hk
  split at hk <;> cases hk

end
end Cache
end CacheReplay.GLCache
