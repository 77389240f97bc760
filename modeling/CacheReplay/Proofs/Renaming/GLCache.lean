import CacheReplay.GLCache.Audit
import CacheReplay.Proofs.Renaming.Runs

set_option autoImplicit false

namespace CacheReplay.GLCache

variable {f : Nat → Nat} {s s' : Store ObjectTag} (hs : s.Renamed f s')

section
include hs

theorem scoresOf_rename (t : Table) (kind : Score) (m : Moment) (run : List Slot) :
    scoresOf t s' kind m run = scoresOf t s kind m run := by
  unfold scoresOf
  congr 1
  funext i
  rw [hs.get?]
  cases s.get? i <;> rfl

theorem lossOf_rename (objects : List Slot) (kind : Score) (m : Moment) (byFuture : Bool)
    (retained : Nat) :
    lossOf s' objects kind m byFuture retained = lossOf s objects kind m byFuture retained := by
  have found : objects.filterMap s'.get? = (objects.filterMap s.get?).map (Record.rename f) := by
    rw [List.map_filterMap]
    exact List.filterMap_congr fun i _ => hs.get? i
  unfold lossOf
  rw [found, List.mapM_map]
  rfl

end

namespace Contents

def Renamed (f : Nat → Nat) (c c' : Contents) : Prop :=
  ∃ s', c.store.Renamed f s' ∧ c' = { c with store := s' }

namespace Renamed
variable {c c' : Contents} (h : c.Renamed f c')
include h

theorem retireOrFree (i : Slot) (ghosts : List Slot) (m : Moment) :
    Alike (Renamed f) (c.retireOrFree i ghosts m) (c'.retireOrFree i ghosts m) := by
  obtain ⟨s', hs, rfl⟩ := h
  unfold Contents.retireOrFree
  dsimp only
  split
  · exact .bind_same _ fun table => .pure ⟨s', hs, rfl⟩
  · exact .bind_same _ fun table => .pure ⟨s', hs, rfl⟩

theorem openTarget (parents : List Slot) (m : Moment) :
    Alike (Agree (Renamed f)) (c.openTarget parents m) (c'.openTarget parents m) := by
  obtain ⟨s', hs, rfl⟩ := h
  unfold Contents.openTarget
  refine .bind_same _ fun bucket => ?_
  refine .bind_same _ fun p => ?_
  exact .bind_same _ fun merges => .pure ⟨rfl, s', hs, rfl⟩

variable (inj : Function.Injective f)
include inj

theorem dropObject (i : Slot) (r : Record ObjectTag) (ghost : Bool) :
    Alike (Renamed f) (c.dropObject i r ghost) (c'.dropObject i (r.rename f) ghost) := by
  obtain ⟨s', hs, rfl⟩ := h
  refine .bind_same _ fun account => ?_
  have given : Alike (Store.Yielding f) ((if ghost then c.store.demote else c.store.delete) i)
      ((if ghost then s'.demote else s'.delete) i) := by
    cases ghost with
    | false => exact hs.delete inj i
    | true => exact hs.demote inj i
  exact given.bind fun p q yielded => .pure ⟨q.2, yielded.2, rfl⟩

theorem dropAll (sampled : Bool) (is : List Slot) : Alike (Agree (Agree (Renamed f)))
    (Contents.dropAll sampled is c) (Contents.dropAll sampled is c') := by
  induction is generalizing c c' with
  | nil => exact .pure ⟨rfl, rfl, h⟩
  | cons i is ih =>
    have dropped := h.dropObject inj i
    have rest := ih h
    obtain ⟨s', hs, rfl⟩ := h
    unfold Contents.dropAll
    dsimp only
    rw [hs.get?]
    cases c.store.get? i with
    | none => exact rest
    | some r =>
      refine (dropped r _).bind fun d d' hd => (ih hd).bind ?_
      rintro ⟨_, _, d⟩ ⟨n, ghosts, d'⟩ ⟨rfl, rfl, hd⟩
      exact .pure ⟨rfl, rfl, hd⟩

theorem evictSegment (i : Slot) (m : Moment) :
    Alike (Agree (Renamed f)) (c.evictSegment i m) (c'.evictSegment i m) := by
  obtain ⟨s', hs, rfl⟩ := h
  unfold Contents.evictSegment
  dsimp only
  cases c.table.get? i with
  | none => exact .pure ⟨rfl, s', hs, rfl⟩
  | some t =>
    have taken : ∀ table : Table, Renamed f { c with table } { c with table, store := s' } :=
      fun _ => ⟨s', hs, rfl⟩
    refine ((taken _).dropAll inj t.sampled _).bind ?_
    rintro ⟨_, _, d⟩ ⟨n, ghosts, d'⟩ ⟨rfl, rfl, hd⟩
    exact (hd.retireOrFree i ghosts m).bind fun _ _ he => .pure ⟨rfl, he⟩

theorem freeQuarantined (i : Slot) :
    Alike (Renamed f) (c.freeQuarantined i) (c'.freeQuarantined i) := by
  obtain ⟨s', hs, rfl⟩ := h
  unfold Contents.freeQuarantined
  refine (Alike.foldlM _ (fun j s s' hs => ?_) hs).bind fun s t ht => .pure ⟨t, ht, rfl⟩
  rw [hs.get?]
  have owned : ((s.get? j).map (Record.rename f)).any (fun r => r.ghost && r.tag.segment == i) =
      (s.get? j).any fun r => r.ghost && r.tag.segment == i := by
    cases s.get? j <;> rfl
  rw [owned]
  split
  · exact ((hs.delete inj j).mono fun _ _ yielded => yielded.2).map
  · exact .pure hs

theorem clearQuarantine : Alike (Renamed f) c.clearQuarantine c'.clearQuarantine := by
  have chains : c'.table = c.table := by
    obtain ⟨s', hs, rfl⟩ := h
    rfl
  unfold Contents.clearQuarantine
  rw [chains]
  refine (Alike.foldlM _ (fun i d d' hd => hd.freeQuarantined inj i) h).bind ?_
  rintro d _ ⟨t, ht, rfl⟩
  exact .pure ⟨t, ht, rfl⟩

end Renamed
end Contents

namespace Merging

def Renamed (f : Nat → Nat) (g g' : Merging) : Prop :=
  ∃ s', g.contents.store.Renamed f s' ∧ g' = { g with contents := { g.contents with store := s' } }

namespace Renamed
variable {g g' : Merging} (h : g.Renamed f g')
include h

theorem move (i : Slot) (r : Record ObjectTag) :
    Alike (Renamed f) (g.move i r) (g'.move i (r.rename f)) := by
  obtain ⟨s', hs, rfl⟩ := h
  refine .bind_same _ fun doubled => ?_
  refine .bind_same _ fun bytes => ?_
  exact .bind_same _ fun keptBytes => .pure ⟨_, hs.modify i fun _ => rfl, rfl⟩

variable (inj : Function.Injective f)
include inj

theorem sift (sampled : Bool) (i : Slot) :
    Alike (Agree (Renamed f)) (g.sift sampled i) (g'.sift sampled i) := by
  obtain ⟨s', hs, rfl⟩ := h
  unfold Merging.sift
  dsimp only
  rw [hs.get?]
  cases g.contents.store.get? i with
  | none => exact .pure ⟨rfl, s', hs, rfl⟩
  | some r =>
    dsimp only [Option.map_some]
    rw [Record.rename_tag]
    split
    · have forked : Agree (Store.Renamed f)
          (if sampled && !r.tag.seen then g.contents.store.forkGhost i else (none, g.contents.store))
          (if sampled && !r.tag.seen then s'.forkGhost i else (none, s')) := by
        split
        · exact hs.forkGhost inj i
        · exact ⟨rfl, hs⟩
      generalize (if sampled && !r.tag.seen then s'.forkGhost i else (none, s')) = q at forked
      obtain ⟨ghost, t'⟩ := q
      refine (Renamed.move ⟨t', forked.2, rfl⟩ i r).bind fun d d' hd => ?_
      exact .pure ⟨forked.1, hd⟩
    · refine (Contents.Renamed.dropObject ⟨s', hs, rfl⟩ inj i r _).bind ?_
      rintro d _ ⟨t', ht, rfl⟩
      exact .pure ⟨rfl, t', ht, rfl⟩

theorem siftAll (sampled : Bool) (is : List Slot) : Alike (Agree (Renamed f))
    (Merging.siftAll sampled is g) (Merging.siftAll sampled is g') := by
  induction is generalizing g g' with
  | nil => exact .pure ⟨rfl, h⟩
  | cons i is ih =>
    refine (h.sift inj sampled i).bind ?_
    rintro ⟨_, d⟩ ⟨ghost, d'⟩ ⟨rfl, hd⟩
    refine (ih hd).bind ?_
    rintro ⟨_, e⟩ ⟨ghosts, e'⟩ ⟨rfl, he⟩
    exact .pure ⟨rfl, he⟩

theorem absorb (parent : Slot) (m : Moment) :
    Alike (Renamed f) (g.absorb parent m) (g'.absorb parent m) := by
  obtain ⟨s', hs, rfl⟩ := h
  unfold Merging.absorb
  dsimp only
  cases g.contents.table.get? parent with
  | none => exact .pure ⟨s', hs, rfl⟩
  | some t =>
    have taken : ∀ table : Table, Renamed f { g with contents := { g.contents with table } }
        { g with contents := { g.contents with table, store := s' } } := fun _ => ⟨s', hs, rfl⟩
    refine ((taken _).siftAll inj t.sampled _).bind ?_
    rintro ⟨_, d⟩ ⟨ghosts, d'⟩ ⟨rfl, hd⟩
    obtain ⟨t', ht, rfl⟩ : d.Renamed f d' := hd
    refine (Contents.Renamed.retireOrFree ⟨t', ht, rfl⟩ parent ghosts m).bind ?_
    rintro e _ ⟨u', hu, rfl⟩
    exact .pure ⟨u', hu, rfl⟩

end Renamed
end Merging

namespace Contents.Renamed
variable {c c' : Contents} (h : c.Renamed f c') (inj : Function.Injective f)
include h inj

theorem merge (parents : List Slot) (scores : List Float) (cutoff : Float) (m : Moment) :
    Alike (Agree (Renamed f)) (c.merge parents scores cutoff m) (c'.merge parents scores cutoff m) := by
  unfold Contents.merge
  refine (h.openTarget parents m).bind ?_
  rintro ⟨_, d⟩ ⟨target, d'⟩ ⟨rfl, hd⟩
  obtain ⟨s', hs, rfl⟩ : d.Renamed f d' := hd
  refine (Alike.foldlM parents (fun parent g g' hg => Merging.Renamed.absorb hg inj parent m)
    ⟨s', hs, rfl⟩).bind ?_
  rintro g _ ⟨t', ht, rfl⟩
  exact .pure ⟨rfl, t', ht, rfl⟩

end Contents.Renamed

namespace Learner
variable {μ : Type} {c c' : Contents} (h : c.Renamed f c')
include h

theorem firstLabel_rename (s : Segment) (m : Moment) (how : Labelling) :
    firstLabel c' s m how = firstLabel c s m how := by
  obtain ⟨s', hs, rfl⟩ := h
  unfold firstLabel
  dsimp only
  rw [lossOf_rename hs]

theorem pick_rename (m : Moment) (how : Labelling) (ratio credit : Float) (room : Nat) (is : List Slot) :
    pick c' m how ratio credit room is = pick c m how ratio credit room is := by
  have table : c'.table = c.table := by
    obtain ⟨s', hs, rfl⟩ := h
    rfl
  induction is generalizing credit room with
  | nil => rfl
  | cons i is ih =>
    unfold pick
    simp only [table, ih, firstLabel_rename h]

theorem renamed_snapshot (l : Learner μ) (m : Moment) (how : Labelling) :
    Alike (Agree (Contents.Renamed f)) (l.snapshot c m how) (l.snapshot c' m how) := by
  have picked := pick_rename h m how
  obtain ⟨s', hs, rfl⟩ := h
  unfold snapshot
  dsimp only
  rw [picked]
  exact .bind_same _ fun picked => .pure ⟨rfl, s', hs, rfl⟩

theorem renamed_train [Regression.Regressor μ] (inj : Function.Injective f) (l : Learner μ) (time : Int) :
    Alike (Agree (Contents.Renamed f)) (l.train c time) (l.train c' time) := by
  unfold train
  refine .bind_same _ fun data => (h.clearQuarantine inj).bind fun d d' cleared => ?_
  refine .bind_same _ fun p => ?_
  obtain ⟨result, model⟩ := p
  cases result with
  | ok _ => exact .pure ⟨rfl, cleared⟩
  | error _ => exact .pure ⟨rfl, cleared⟩

end Learner

namespace Cache
variable {μ : Type}

def Renamed (f : Nat → Nat) (c c' : Cache μ) : Prop :=
  ∃ s', c.contents.store.Renamed f s' ∧ c' = { c with contents := { c.contents with store := s' } }

theorem renamed_ofConfig (capacity overhead : Nat) (config : Config) (model : μ) :
    (ofConfig capacity overhead config model).Renamed f (ofConfig capacity overhead config model) :=
  ⟨_, Store.renamed_empty f, rfl⟩

namespace Renamed
variable {c c' : Cache μ} (h : c.Renamed f c')
include h

theorem account_eq : c'.account = c.account := by
  obtain ⟨s', hs, rfl⟩ := h
  rfl

theorem config_eq : c'.config = c.config := by
  obtain ⟨s', hs, rfl⟩ := h
  rfl

theorem creditSegment (segment : Slot) (size : Nat) :
    Alike (Renamed f) (c.creditSegment segment size) (c'.creditSegment segment size) := by
  obtain ⟨s', hs, rfl⟩ := h
  unfold Cache.creditSegment
  dsimp only
  split
  · exact .bind_same _ fun p => .pure ⟨s', hs, rfl⟩
  · exact .pure ⟨s', hs, rfl⟩

theorem hit (req : Request) (i : Slot) (r : Record ObjectTag) :
    Alike (Renamed f) (c.hit req i r) (c'.hit (req.rename f) i (r.rename f)) := by
  obtain ⟨s', hs, rfl⟩ := h
  unfold Cache.hit
  dsimp only
  rw [Record.rename_tag]
  cases c.contents.table.get? r.tag.segment with
  | none =>
    exact .pure ⟨_, hs.touch i req c.account.now fun tag =>
      { tag with active := true, freq := bumpFreq tag.freq }, rfl⟩
  | some t =>
    have noted := hs.touch i req c.account.now fun tag =>
      { tag with active := true, freq := bumpFreq tag.freq, seen := tag.seen || t.sampled }
    exact .bind_same _ fun counted => creditSegment ⟨_, noted, rfl⟩ r.tag.segment r.size

variable (inj : Function.Injective f)
include inj

theorem creditGhost (id : Nat) :
    Alike (Renamed f) (c.creditGhost id) (c'.creditGhost (f id)) := by
  have credited := h.creditSegment
  obtain ⟨s', hs, rfl⟩ := h
  unfold Cache.creditGhost
  dsimp only
  rw [hs.findGhost?]
  cases c.contents.store.findGhost? id with
  | none => exact .pure ⟨s', hs, rfl⟩
  | some i =>
    dsimp only
    rw [hs.get?]
    cases c.contents.store.get? i with
    | none => exact (hs.delete inj i).bind fun p q yielded => .pure ⟨q.2, yielded.2, rfl⟩
    | some r =>
      refine (credited r.tag.segment r.size).bind ?_
      rintro d _ ⟨t', ht, rfl⟩
      exact (ht.delete inj i).bind fun p q yielded => .pure ⟨q.2, yielded.2, rfl⟩

theorem check (req : Request) (update : Bool) :
    Alike (Agree (Renamed f)) (c.check req update) (c'.check (req.rename f) update) := by
  have credited := h.creditGhost inj req.id
  have hits := h.hit req
  obtain ⟨s', hs, rfl⟩ := h
  unfold Cache.check
  dsimp only
  rw [Request.rename_id, hs.find?]
  cases c.contents.store.find? req.id with
  | none =>
    cases update with
    | false => exact .pure ⟨rfl, s', hs, rfl⟩
    | true => exact credited.bind fun _ _ hd => .pure ⟨rfl, hd⟩
  | some i =>
    cases update with
    | false => exact .pure ⟨rfl, s', hs, rfl⟩
    | true =>
      dsimp only [if_true]
      rw [hs.get?]
      cases c.contents.store.get? i with
      | none => exact .pure ⟨rfl, s', hs, rfl⟩
      | some r =>
        refine (hits i r).bind fun _ _ hd => ?_
        exact (hd.creditGhost inj req.id).bind fun _ _ he => .pure ⟨rfl, he⟩

theorem insert (req : Request) :
    Alike (Agree (Renamed f)) (c.insert req) (c'.insert (req.rename f)) := by
  obtain ⟨s', hs, rfl⟩ := h
  unfold Cache.insert
  refine .bind_same _ fun p => ?_
  refine (hs.insert inj req _ _).bind ?_
  rintro ⟨_, t⟩ ⟨i, t'⟩ ⟨rfl, ht⟩
  refine .bind_same _ fun footprint => ?_
  refine .bind_same _ fun bytes => ?_
  exact .bind_same _ fun account => .pure ⟨rfl, t', ht, rfl⟩

theorem remove (id : Nat) : Alike (Agree (Renamed f)) (c.remove id) (c'.remove (f id)) := by
  obtain ⟨s', hs, rfl⟩ := h
  unfold Cache.remove
  dsimp only
  rw [hs.find?]
  cases c.contents.store.find? id with
  | none => exact .pure ⟨rfl, s', hs, rfl⟩
  | some i =>
    refine (hs.delete inj i).bind ?_
    rintro ⟨gone, t⟩ ⟨_, t'⟩ ⟨rfl, deleted⟩
    cases gone with
    | none => exact .pure ⟨rfl, s', hs, rfl⟩
    | some r =>
      refine .bind_same _ fun footprint => ?_
      rw [Record.rename_tag]
      have released : ∀ table : Table, Alike (Agree (Renamed f))
          (c.account.release r.size >>= fun account =>
            pure (true, { c with contents := ⟨table, t, account⟩ }))
          (c.account.release r.size >>= fun account =>
            pure (true, { c with contents := ⟨table, t', account⟩ })) :=
        fun table => .bind_same _ fun account => .pure ⟨rfl, t', deleted, rfl⟩
      cases c.contents.table.get? r.tag.segment with
      | none => exact released _
      | some u =>
        refine .bind_same _ fun bytes => ?_
        split
        · exact .bind_same _ fun active => released _
        · exact released _

theorem evictSingle (i : Slot) : Alike (Renamed f) (c.evictSingle i) (c'.evictSingle i) := by
  obtain ⟨s', hs, rfl⟩ := h
  unfold Cache.evictSingle
  refine .bind_same _ fun notice => ?_
  refine (Contents.Renamed.evictSegment ⟨s', hs, rfl⟩ inj i c.moment).bind ?_
  rintro ⟨_, d⟩ ⟨n, d'⟩ ⟨rfl, hd⟩
  obtain ⟨t', ht, rfl⟩ : d.Renamed f d' := hd
  exact .bind_same _ fun tally => .pure ⟨t', ht, rfl⟩

theorem evictRun (run : List Slot) : Alike (Renamed f) (c.evictRun run) (c'.evictRun run) := by
  obtain ⟨s', hs, rfl⟩ := h
  unfold Cache.evictRun
  dsimp only
  rw [scoresOf_rename hs]
  refine .bind_same _ fun exact => ?_
  refine .bind_same _ fun bar => ?_
  refine (Contents.Renamed.merge ⟨s', hs, rfl⟩ inj run _ bar c.moment).bind ?_
  rintro ⟨_, d⟩ ⟨did, d'⟩ ⟨rfl, hd⟩
  obtain ⟨t', ht, rfl⟩ : d.Renamed f d' := hd
  exact .bind_same _ fun tally => .pure ⟨t', ht, rfl⟩

end Renamed

section
variable [Regression.Regressor μ] {c c' : Cache μ} (h : c.Renamed f c')
include h

theorem Renamed.utilityOf (i : Slot) (s : Segment) : c'.utilityOf i s = c.utilityOf i s := by
  obtain ⟨s', hs, rfl⟩ := h
  unfold Cache.utilityOf Cache.foreseen
  dsimp only
  rw [lossOf_rename hs]
  rfl

theorem Renamed.appraise : c'.appraise = c.appraise := by
  have utilities := h.utilityOf
  obtain ⟨s', hs, rfl⟩ := h
  unfold Cache.appraise
  simp only [utilities]

theorem Renamed.rankedTable : c'.rankedTable = c.rankedTable := by
  obtain ⟨s', hs, rfl⟩ := h
  have appraised : ∀ table : Table,
      ({ c with contents := { c.contents with table, store := s' } } : Cache μ).appraise =
        ({ c with contents := { c.contents with table } } : Cache μ).appraise :=
    fun _ => Renamed.appraise ⟨s', hs, rfl⟩
  unfold Cache.rankedTable
  dsimp only
  rw [appraised]

theorem Renamed.choose : Alike (Agree (Renamed f)) c.choose c'.choose := by
  have ranked := h.rankedTable
  have chosen : ∀ p : Option Choice × Chooser, Renamed f (c.withChooser (Chooser.orOldest p).2)
      (c'.withChooser (Chooser.orOldest p).2) := by
    obtain ⟨s', hs, rfl⟩ := h
    exact fun p => ⟨s', hs, rfl⟩
  have selected : c'.selection = c.selection := by
    obtain ⟨s', hs, rfl⟩ := h
    rfl
  have chooser : c'.chooser = c.chooser := by
    obtain ⟨s', hs, rfl⟩ := h
    rfl
  have table : c'.contents.table = c.contents.table := by
    obtain ⟨s', hs, rfl⟩ := h
    rfl
  unfold Cache.choose
  dsimp only
  rw [ranked, selected, h.config_eq, chooser, table]
  cases c.selection with
  | fifo => exact .pure ⟨rfl, chosen _⟩
  | weightedFifo => exact .pure ⟨rfl, chosen _⟩
  | random => exact .pure ⟨rfl, chosen _⟩
  | learned => exact .bind_same _ fun t => .pure ⟨rfl, chosen _⟩

omit [Regression.Regressor μ] in
theorem Renamed.snapshot : Alike (Renamed f) c.snapshot c'.snapshot := by
  obtain ⟨s', hs, rfl⟩ := h
  refine (c.learner.renamed_snapshot ⟨s', hs, rfl⟩ c.moment c.labelling).bind ?_
  rintro ⟨_, d⟩ ⟨learner, d'⟩ ⟨rfl, hd⟩
  obtain ⟨t', ht, rfl⟩ : d.Renamed f d' := hd
  exact .pure ⟨t', ht, rfl⟩

theorem Renamed.learn (inj : Function.Injective f) : Alike (Renamed f) c.learn c'.learn := by
  obtain ⟨s', hs, rfl⟩ := h
  unfold Cache.learn
  refine .bind_same _ fun step => ?_
  cases step with
  | wait => exact .pure ⟨s', hs, rfl⟩
  | firstSnapshot => exact Renamed.snapshot ⟨s', hs, rfl⟩
  | retrain =>
    refine (c.learner.renamed_train ⟨s', hs, rfl⟩ inj c.account.clock).bind ?_
    rintro ⟨_, d⟩ ⟨learner, d'⟩ ⟨rfl, hd⟩
    obtain ⟨t', ht, rfl⟩ : d.Renamed f d' := hd
    exact Renamed.snapshot ⟨t', ht, rfl⟩

theorem Renamed.settle (inj : Function.Injective f) (hit : Bool) :
    Alike (Renamed f) (c.settle hit) (c'.settle hit) := by
  have rated : ∀ {d d' : Cache μ}, d.Renamed f d' → Alike (Renamed f)
      (d.load.record hit d.moment >>= fun load => pure { d with load })
      (d'.load.record hit d'.moment >>= fun load => pure { d' with load }) := by
    rintro d _ ⟨s', hs, rfl⟩
    exact .bind_same _ fun load => .pure ⟨s', hs, rfl⟩
  have learned := h.learn inj
  unfold Cache.settle
  rw [h.config_eq]
  dsimp only
  split
  · exact learned.bind fun _ _ hd => rated hd
  · exact rated h

theorem Renamed.evict (inj : Function.Injective f) : Alike (Agree (Renamed f)) c.evict c'.evict := by
  unfold Cache.evict
  refine h.choose.bind ?_
  rintro ⟨_, d⟩ ⟨choice, d'⟩ ⟨rfl, hd⟩
  cases choice with
  | none => exact .pure ⟨rfl, hd⟩
  | some choice =>
    cases choice with
    | merge run => exact (Renamed.evictRun hd inj run).bind fun _ _ he => .pure ⟨rfl, he⟩
    | single i => exact (Renamed.evictSingle hd inj i).bind fun _ _ he => .pure ⟨rfl, he⟩

end
theorem impartial [Regression.Regressor μ] (inj : Function.Injective f) :
    EvictionPolicy.Impartial f (Renamed f : Cache μ → Cache μ → Prop) where
  name _ := rfl
  account h := h.account_eq
  evictable := by
    rintro c _ ⟨s', hs, rfl⟩
    rfl
  withAccount := by
    rintro c _ a ⟨s', hs, rfl⟩
    exact ⟨s', hs, rfl⟩
  check req update h := h.check inj req update
  insert req h := h.insert inj req
  evict req h := h.evict inj
  remove id h := h.remove inj id
  settle hit h := h.settle inj hit

end Cache
end CacheReplay.GLCache
