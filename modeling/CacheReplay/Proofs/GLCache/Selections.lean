import CacheReplay.Proofs.GLCache.Consumption

set_option autoImplicit false

namespace CacheReplay.GLCache
open Regression

def Choice.start : Choice → Option Slot
  | .merge run => run.head?
  | .single i => some i

/-- What is noted of the choices by utility since the latest ranking. -/
structure Usage where
  /-- The ranked segments that they have started from. -/
  starts : List Slot
  /-- Whether the last of them found no run. -/
  spent : Bool

namespace Usage

def none : Usage := ⟨[], false⟩

def after (n : Usage) (anew : Bool) (a : Table) (choice : Option Choice) : Usage where
  starts := ((choice.bind Choice.start).filter (some · ∈ a.ranking.slots)).toList ++
    if anew then [] else n.starts
  spent := !choice.any (· matches .merge _)

end Usage

namespace Table.Consumes
variable {rule : Chooser.RankedRule} {a b : Table} {pos : Nat} {choice : Option Choice}

theorem start_unranked (h : a.Consumes rule pos b choice) {i : Slot} (start : choice.bind Choice.start = some i) :
    b.Unranked i := by
  cases h with
  | run _ _ _ _ _ picked _ => exact picked i (List.mem_of_head? start)
  | whole _ _ _ _ _ _ _ picked _ =>
    cases start
    exact picked
  | exhausted _ _ _ left => exact left i

theorem stale (h : a.Consumes rule pos b choice) (single : choice.any (· matches .merge _) = false) :
    b.ranking.position = none := by
  cases h with
  | run => cases single
  | whole _ _ _ _ _ _ position _ _ => exact position
  | exhausted _ _ position _ => exact position

end Table.Consumes

namespace Cache
variable {μ : Type}

def rankedRule (c : Cache μ) : Chooser.RankedRule :=
  ⟨c.config.mergeCount, c.config.consecutive, c.config.fallbackFraction⟩

/-- The ranking is in order, and the notes tell how far it is used up. -/
structure Tracked (c : Cache μ) (n : Usage) : Prop where
  tidy : c.contents.table.Tidy
  nodup : n.starts.Nodup
  gone : ∀ i ∈ n.starts, ∀ p, ¬c.contents.table.Names p i
  stale : n.spent = true → c.contents.table.ranking.position = none

theorem Tracked.of_rests {c d : Cache μ} {n : Usage} (h : c.Tracked n)
    (rests : c.contents.table.Rests d.contents.table) : d.Tracked n where
  tidy := h.tidy.of_rests rests
  nodup := h.nodup
  gone i hi p named := h.gone i hi p (rests.names p i named)
  stale spent := rests.position.trans (h.stale spent)

theorem tracked_ofConfig (capacity overhead : Nat) (config : Config) (model : μ) :
    (ofConfig capacity overhead config model).Tracked .none :=
  ⟨Table.tidy_empty _, .nil, nofun, nofun⟩

variable [Regressor μ]

def usage : Observer (Cache μ) Usage where
  evict c _ _ n :=
    match c.selection, c.rankedTable, c.choose with
    | .learned, .ok a, .ok (choice, _) => n.after c.ranksAnew a choice
    | _, _, _ => n

variable {t : Tolerance} {c : Cache μ} {n : Usage}

theorem Sound.settles_rankedTable_ready (h : c.Sound) (tidy : c.contents.table.Tidy) :
    Settles t c.rankedTable fun a => a.Ready c.contents.table.chainOf ∧
      Table.Settled c.contents.table.chainOf c.contents.table a ∧
      (∃ p, a.ranking.position = some p) ∧ (c.ranksAnew = false → a = c.contents.table) := by
  have strung := h.contents.strung
  have ranked := h.contents.ranked
  refine ((c.settles_rankedTable strung ranked).and (c.settles_rankedTable_cases strung ranked)).mono
    fun a prepared => ?_
  obtain ⟨settled, kept | ⟨anew, d, rerated, same⟩⟩ := prepared
  · obtain ⟨-, same, fresh⟩ := kept
    refine ⟨⟨settled.strung, settled.ranked, same ▸ tidy⟩, settled, ?_, fun _ => same⟩
    rw [same]
    unfold Table.rankingDue at fresh
    cases e : c.contents.table.ranking.position with
    | none =>
      rw [e] at fresh
      cases fresh
    | some p => exact ⟨p, rfl⟩
  · obtain ⟨order, reordered⟩ := rerated.reordered strung
    rw [← same] at reordered
    refine ⟨⟨settled.strung, settled.ranked, .of_reordered reordered⟩, settled, ⟨0, reordered.position⟩,
      fun kept => ?_⟩
    rw [anew] at kept
    cases kept

theorem Sound.settles_choose_consumed (h : c.Sound) (tidy : c.contents.table.Tidy)
    (learned : c.selection = .learned) : Settles t c.choose fun p => ∃ a pos chooser,
      c.rankedTable = .ok a ∧ a.ranking.position = some pos ∧ a.Tidy ∧
      (c.ranksAnew = false → a = c.contents.table) ∧ p.2 = c.withChooser chooser ∧
      chooser.Fit c.contents.table.chainOf c.contents.table ∧
      Chooser.Consumed c.rankedRule a pos (p.1, chooser) := by
  have long : 0 < c.rankedRule.length := Nat.lt_of_succ_lt (Config.bounds_of_validate h.accepted).2.1
  unfold choose
  dsimp only
  rw [learned]
  dsimp only
  refine settles_bind (h.settles_rankedTable_ready tidy).eq_ok fun a prepared => ?_
  obtain ⟨e, ready, settled, ⟨pos, at_pos⟩, same⟩ := prepared
  have fit : (c.chooser a).Fit c.contents.table.chainOf c.contents.table := ⟨settled, h.turn⟩
  exact settles_pure ⟨a, pos, _, e, at_pos, ready.tidy, same, rfl, (fit.rankedRun c.rankedRule long).fit.orOldest,
    fit.consumed c.rankedRule ready long at_pos⟩

omit [Regressor μ] in
theorem rests_withChooser {chooser : Chooser} (leaves : (c.chooser c.contents.table).Leaves chooser) :
    c.contents.table.Rests (c.withChooser chooser).contents.table := leaves.rests

/-- A choice in order of creation or at random does not use the ranking. -/
theorem settles_choose_rests (other : c.selection ≠ .learned) :
    Settles .any c.choose fun p => c.contents.table.Rests p.2.contents.table := by
  unfold choose
  dsimp only
  cases selects : c.selection with
  | fifo => exact settles_pure (rests_withChooser (Chooser.leaves_fifoRun _ _ _).orOldest)
  | weightedFifo => exact settles_pure (rests_withChooser (Chooser.leaves_weightedRun _ _).orOldest)
  | random => exact settles_pure (rests_withChooser (Chooser.leaves_randomRun _ _ _).orOldest)
  | learned => exact absurd selects other

omit [Regressor μ] in
theorem Tracked.after (h : c.Tracked n) {a : Table} {pos : Nat} {choice : Option Choice} {chooser : Chooser}
    (same : c.ranksAnew = false → a = c.contents.table)
    (fit : chooser.Fit c.contents.table.chainOf c.contents.table) (ready : a.Tidy)
    (consumed : Chooser.Consumed c.rankedRule a pos (choice, chooser)) :
    (c.withChooser chooser).Tracked (n.after c.ranksAnew a choice) := by
  have earlier : ∀ i ∈ (if c.ranksAnew then [] else n.starts), ∀ p, ¬a.Names p i := by
    intro i hi p named
    split at hi
    · cases hi
    · rename_i kept
      rw [same (Bool.eq_false_iff.mpr kept)] at named
      exact h.gone i hi p named
  have begun : ∀ i ∈ ((choice.bind Choice.start).filter (some · ∈ a.ranking.slots)).toList,
      choice.bind Choice.start = some i ∧ ∃ p, a.Names p i := by
    intro i hi
    obtain ⟨start, listed⟩ := Option.mem_filter_iff.mp (Option.mem_toList.mp hi)
    exact ⟨start, Array.mem_iff_getElem?.mp (of_decide_eq_true listed)⟩
  constructor
  case tidy => exact consumed.tidy ready
  case nodup =>
    refine List.nodup_append.mpr ⟨?_, ?_, ?_⟩
    · cases (choice.bind Choice.start).filter (some · ∈ a.ranking.slots) with
      | none => exact .nil
      | some i => exact List.nodup_singleton i
    · split
      · exact .nil
      · exact h.nodup
    · rintro i hi j hj rfl
      obtain ⟨-, p, named⟩ := begun i hi
      exact earlier i hj p named
  case gone =>
    intro i hi p named
    rcases List.mem_append.mp hi with hi | hi
    · have unranked := consumed.consumes.start_unranked (begun i hi).1
      exact fit.settled.ranked.not_names unranked p named
    · exact earlier i hi p (consumed.fades.names p i named)
  case stale =>
    intro spent
    refine consumed.consumes.stale ?_
    simpa [Usage.after] using spent

theorem Tracked.settles_evict (h : c.Tracked n) (sound : c.Sound) (req : Request) :
    Settles .any c.evict fun p => p.2.Tracked (usage.evict c req p n) := by
  have chosen : Settles .any c.choose fun p => ∀ q, p.2.Tracked (usage.evict c req q n) := by
    by_cases learned : c.selection = .learned
    · refine (sound.settles_choose_consumed h.tidy learned).eq_ok.mono fun p chose q => ?_
      obtain ⟨answer, a, pos, chooser, prepared, -, tidy, same, made, fit, consumed⟩ := chose
      have noted : usage.evict c req q n = n.after c.ranksAnew a p.1 := by
        simp only [usage, learned, prepared, answer]
      rw [noted, made]
      exact h.after same fit tidy consumed
    · refine (settles_choose_rests learned).mono fun p rests q => ?_
      have noted : usage.evict c req q n = n := by
        unfold usage
        dsimp only
        split
        · rename_i selects _ _
          exact absurd selects learned
        · rfl
      rw [noted]
      exact h.of_rests rests
  apply settles_bind chosen
  rintro ⟨choice, d⟩ tracked
  dsimp only at tracked ⊢
  split
  · exact settles_pure (tracked _)
  · exact settles_bind (Table.routine_rests.evictRun d _) fun e done =>
      settles_pure ((tracked _).of_rests done.table)
  · exact settles_bind (Table.routine_rests.evictSingle d _) fun e done =>
      settles_pure ((tracked _).of_rests done.table)

theorem keeps_tracked : Keeps (.ofModel μ)
    (fun s : Watched (usage (μ := μ)) => fun id => ¬s.cache.contents.store.caches id = true)
    (fun s => s.cache.Sound) fun s => s.cache.Tracked s.notes where
  begun _ _ _ h := ⟨h.tidy, h.nodup, h.gone, h.stale⟩
  check s req update sound h := settles_map <|
    ((sound.settles_check req update).also (Table.routine_rests.check s.cache req update)).mono
      fun _ done => h.of_rests done.2.table
  evict s req sound h := settles_map <|
    (sound.settles_evict.also (h.settles_evict sound req)).mono fun _ done => done.2
  insert s req sound h missed room := settles_map <|
    ((sound.settles_insert missed room).also (Table.routine_rests.insert s.cache req)).mono
      fun _ done => h.of_rests done.2.table
  remove s id sound h := settles_map <|
    ((sound.settles_remove id).also (Table.routine_rests.removeObject s.cache id)).mono
      fun _ done => h.of_rests done.2.table
  settle s hit sound h := settles_map <|
    (sound.settles_teach Tolerance.allows_of_fit hit).mono fun d done => by
      obtain ⟨e, load, taught, rfl⟩ := done
      exact h.of_rests (Table.routine_rests.taught taught).table

/-- Choices by utility use up a ranking in order, each from a start of its own, and renew it when it is spent. -/
structure UsesUp (c : Cache μ) (n : Usage) : Prop where
  choose : c.selection = .learned → ∀ random, Settles .arithmetic (Cache.choose { c with random }) fun p =>
    ∃ a pos, c.rankedTable = .ok a ∧ a.ranking.position = some pos ∧
      a.Consumes c.rankedRule pos p.2.contents.table p.1
  /-- No two choices since the latest ranking have started from the same segment. -/
  starts : n.starts.Nodup
  gone : ∀ i ∈ n.starts, ∀ p, ¬c.contents.table.Names p i
  /-- After a choice that found no run the next one is made from a new ranking. -/
  renewed : n.spent = true → Settles .arithmetic c.rankedTable fun a =>
    ∃ d, c.contents.table.Rerated d ∧ a = d.rerank

theorem Tracked.usesUp (h : c.Tracked n) (sound : c.Sound) : c.UsesUp n where
  choose learned random := by
    have same : Sound { c with random } :=
      ⟨sound.contents, sound.turn, sound.accepted, sound.segmentSize, sound.aligned⟩
    refine (same.settles_choose_consumed h.tidy learned).mono fun p chose => ?_
    obtain ⟨a, pos, chooser, prepared, at_pos, -, -, made, -, consumed⟩ := chose
    rw [made]
    exact ⟨a, pos, prepared, at_pos, consumed.consumes⟩
  starts := h.nodup
  gone := h.gone
  renewed spent := by
    refine (c.settles_rankedTable_cases sound.contents.strung sound.contents.ranked).mono fun a ranked => ?_
    rcases ranked with ⟨-, -, fresh⟩ | ⟨-, anew⟩
    · rw [Table.rankingDue, h.stale spent] at fresh
      cases fresh
    · exact anew

open EvictionPolicy

variable {config : Config} (capacity overhead : Nat) (model : μ)

/--
Whatever a run has done before, also while it makes room for an object: a choice by utility goes
through the ranking in order, and no two of them between two rankings start from the same segment.
-/
theorem run_uses_up_rankings (accepted : config.validate = .ok ()) (ops : List Operation) :
    Settles (.ofModel μ) (run (usage.watch (ofConfig capacity overhead config model) .none) ops) (fun s =>
      s.cache.UsesUp s.notes ∧ ∀ (req : Request) (evictions : Nat),
        Settles (.ofModel μ) (makingRoom s req evictions) fun e => e.cache.UsesUp e.notes) ∧
    Watched.cache <$> run (usage.watch (ofConfig capacity overhead config model) .none) ops =
      run (ofConfig capacity overhead config model) ops := by
  have kept := (dependable_ofModel.unwrapped Watched.wraps_cache).keeping (keeps_tracked (μ := μ))
  have start := sound_ofConfig capacity overhead model accepted
  refine ⟨?_, Watched.forget_run _ ops⟩
  exact kept.settles_throughout (fun _ h => h.2.usesUp h.1) _ ops
    ⟨start, tracked_ofConfig capacity overhead config model⟩

/-- Twelve small objects fill three segments; to make room for one more, two of them are ranked and merged. -/
theorem run_uses_up_rankings_filled :
    Config.validate { Config.defaults with
      segmentSize := 4, retain := 4, signal := .logOracle, selection := some .learned } = .ok () ∧
    Yields (run (usage.watch (ofConfig 12 0 { Config.defaults with
        segmentSize := 4, retain := 4, signal := .logOracle, selection := some .learned }
        (Boosted.unfitted .defaults)) .none) ((List.range 13).map (Operation.get ∘ fun i => .ofId i 1 i)))
      (fun s => s.cache.UsesUp s.notes ∧ ∀ (req : Request) (evictions : Nat),
        Settles (.ofModel Boosted) (makingRoom s req evictions) fun e => e.cache.UsesUp e.notes) :=
  ⟨rfl, returns_watched rfl (by decide) (run_uses_up_rankings 12 0 _ rfl _).1⟩

end Cache
end CacheReplay.GLCache
