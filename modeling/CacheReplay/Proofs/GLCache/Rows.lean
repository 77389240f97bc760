import CacheReplay.Proofs.GLCache.Crediting
import CacheReplay.Proofs.GLCache.Invariants
import CacheReplay.Proofs.Observation
import Mathlib.Data.Set.Function

set_option autoImplicit false

namespace CacheReplay.GLCache
open Regression

namespace Table

theorem exists_get?_unsampled (l : List Slot) (a : Table) (i : Slot) :
    ((l.foldl (fun t j => t.modify j Learner.unsample) a).get? i).isSome = (a.get? i).isSome := by
  induction l generalizing a with
  | nil => rfl
  | cons j rest ih =>
    rw [List.foldl_cons, ih, get?_modify]
    split
    · exact Option.isSome_map
    · rfl

theorem sample?_unsampled (l : List Slot) (a : Table) (i : Slot) :
    (l.foldl (fun t j => t.modify j Learner.unsample) a).sample? i =
      if i ∈ l then none else a.sample? i := by
  induction l generalizing a with
  | nil => rfl
  | cons j rest ih =>
    have first : (a.modify j Learner.unsample).sample? i = if i = j then none else a.sample? i := by
      rw [sample?, get?_modify, sample?]
      by_cases e : j = i
      · subst e
        rw [if_pos rfl, if_pos rfl]
        cases a.get? j <;> rfl
      · rw [if_neg e, if_neg (Ne.symm e)]
    rw [List.foldl_cons, ih, first]
    by_cases e : i = j <;> simp [e]

theorem sample?_markAll (now : Int) {l : List Slot} (nodup : l.Nodup) (row : Nat) (a : Table) (i : Slot) :
    (Learner.markAll now row l a).sample? i =
      if i ∈ l then (a.get? i).map fun s => (s.id, some (row + l.idxOf i)) else a.sample? i := by
  induction l generalizing row a with
  | nil => rfl
  | cons j rest ih =>
    obtain ⟨fresh, nodup⟩ := List.nodup_cons.mp nodup
    rw [Learner.markAll, ih nodup]
    by_cases e : j = i
    · subst e
      rw [if_neg fresh, if_pos List.mem_cons_self, Learner.mark, sample?, get?_modify, if_pos rfl,
        List.idxOf_cons_self]
      cases a.get? j <;> rfl
    · have get : (Learner.mark a j row now).get? i = a.get? i := by
        rw [Learner.mark, get?_modify, if_neg e]
      have next : row + 1 + rest.idxOf i = row + (j :: rest).idxOf i := by
        rw [List.idxOf_cons_ne _ e]
        omega
      rw [sample?, get, next, ← sample?]
      simp [Ne.symm e]

/-- The segments that are sampled, live or in quarantine. -/
def sampled (a : Table) : Set Slot := {i | (a.sample? i).isSome = true}

theorem candidates_sublist (a : Table) : (Learner.candidates a).Sublist a.live :=
  List.Sublist.flatMap_right _ fun _ _ => List.take_sublist _ _

theorem mem_sampled {a : Table} {i : Slot} : i ∈ a.sampled ↔ (a.sample? i).isSome = true := .rfl

theorem bijOn_of_listed {a : Table} {l : List Slot} (nodup : l.Nodup)
    (listed : ∀ i, (a.sample? i).map (·.2) = if i ∈ l then some (some (l.idxOf i)) else none) :
    Set.BijOn a.rowOf? a.sampled (some '' Set.Iio l.length) := by
  have sampled : a.sampled = {i | i ∈ l} := by
    ext i
    have e := congrArg Option.isSome (listed i)
    rw [Option.isSome_map] at e
    rw [mem_sampled, e]
    by_cases hi : i ∈ l <;> simp [hi]
  have row : ∀ i ∈ l, a.rowOf? i = some (l.idxOf i) := by
    intro i hi
    have e := listed i
    rw [if_pos hi] at e
    obtain ⟨x, hx, second⟩ := Option.map_eq_some_iff.mp e
    rw [rowOf?, hx, Option.bind_some, second]
  rw [sampled]
  refine ⟨fun i hi => ?_, fun i hi j hj e => ?_, ?_⟩
  · exact ⟨l.idxOf i, List.idxOf_lt_length_of_mem hi, (row i hi).symm⟩
  · rw [row i hi, row j hj] at e
    exact (List.idxOf_inj hi).mp (Option.some.inj e)
  · rintro _ ⟨n, hn, rfl⟩
    have hn : n < l.length := hn
    have mem : l[n] ∈ l := List.getElem_mem hn
    exact ⟨l[n], mem, by rw [row _ mem, nodup.idxOf_getElem n hn]⟩

end Table

def Learner.runs {μ : Type} (l : Learner μ) : Nat := l.trainings + l.failures

namespace Cache
open EvictionPolicy
variable {μ : Type}

/-- Every sampled segment has a row of its own, and there are no other rows. -/
structure Tabulated (c : Cache μ) (maxRows : Nat) : Prop where
  rows : Set.BijOn c.contents.table.rowOf? c.contents.table.sampled
    (some '' Set.Iio c.learner.samples.size)
  aligned : c.learner.samples.Aligned featureCount
  room : c.learner.samples.size ≤ maxRows
  maxRows : c.learner.maxRows = maxRows
  unstarted : c.learner.started = false → c.learner.samples.size = 0

/-- Until the next training run, what is sampled stays where it is and keeps its row. -/
structure Retains (c d : Cache μ) : Prop where
  later : c.learner.runs ≤ d.learner.runs
  kept : d.learner.runs = c.learner.runs → ∀ i x, c.contents.table.sample? i = some x →
    d.contents.table.sample? i = some x

namespace Tabulated
variable {c d : Cache μ} {maxRows : Nat}

theorem ofConfig (capacity overhead : Nat) (config : Config) (model : μ) :
    (ofConfig capacity overhead config model).Tabulated config.maxRows where
  rows := by
    have none : (Cache.ofConfig capacity overhead config model).contents.table.sampled = ∅ := by
      refine Set.eq_empty_of_forall_notMem fun i hi => ?_
      have absent : (Table.empty config.segmentSize).get? i = none := Arena.get?_empty i
      rw [Table.mem_sampled, Cache.ofConfig, Contents.empty, Table.sample?_of_none absent] at hi
      cases hi
    rw [none]
    simp [Cache.ofConfig, Learner.start, Samples.empty, Samples.size]
  aligned := (Nat.zero_mul _).symm
  room := Nat.zero_le _
  maxRows := rfl
  unstarted _ := rfl

theorem unshared (h : c.Tabulated maxRows) : c.Unshared := by
  have sampled : ∀ {p n}, c.contents.table.rowOf? p = some n → p ∈ c.contents.table.sampled := by
    intro p n row
    obtain ⟨x, hx, -⟩ := Option.bind_eq_some_iff.mp row
    rw [Table.mem_sampled, hx]
    rfl
  intro p q n hp hq
  exact h.rows.injOn (sampled hp) (sampled hq) (hp.trans hq.symm)

theorem sampled_eq_empty (h : c.Tabulated maxRows) (none : c.learner.samples.size = 0) :
    c.contents.table.sampled = ∅ := by
  have rows := h.rows
  rw [none] at rows
  refine Set.eq_empty_of_forall_notMem fun i hi => ?_
  obtain ⟨n, hn, -⟩ := rows.mapsTo hi
  exact Nat.not_lt_zero n hn

theorem relabelled (h : c.Tabulated maxRows) {rows : Nat → Prop} (k : c.Relabelled rows d) :
    d.Tabulated maxRows where
  rows := by
    have row : d.contents.table.rowOf? = c.contents.table.rowOf? :=
      funext fun i => by rw [Table.rowOf?, Table.rowOf?, k.sample?]
    rw [row, Table.sampled, k.sample?, k.learner.size]
    exact h.rows
  aligned := k.learner.aligned h.aligned
  room := by
    rw [k.learner.size]
    exact h.room
  maxRows := by
    obtain ⟨labels, e⟩ := k.learner.same
    rw [e]
    exact h.maxRows
  unstarted fresh := by
    obtain ⟨labels, e⟩ := k.learner.same
    rw [e] at fresh
    exact k.learner.size.trans (h.unstarted fresh)

theorem row_sampling {picked : List (Slot × Sample)} (sound : c.Sound) (blank : c.learner.samples.size = 0)
    (live : c.contents.table.sampled ⊆ {i | i ∈ c.contents.table.live}) (pick : c.Picked picked) (i : Slot) :
    ((c.sampling picked).contents.table.sample? i).map (·.2) =
      if i ∈ picked.map (·.1) then some (some ((picked.map (·.1)).idxOf i)) else none := by
  have sub := pick.sub.trans c.contents.table.candidates_sublist
  have nodup := sub.nodup sound.contents.strung.nodup_live
  rw [Cache.sampling, Table.sample?_markAll _ nodup, Table.sample?_unsampled, blank]
  split
  · rename_i mem
    obtain ⟨g, hg, -⟩ := (sound.contents.strung.mem_live_iff i).mp (sub.subset mem)
    have some := Table.exists_get?_unsampled c.contents.table.live c.contents.table i
    rw [hg] at some
    obtain ⟨u, hu⟩ := Option.isSome_iff_exists.mp some
    rw [hu]
    simp
  · split
    · rfl
    · rename_i dead
      rw [Option.map_eq_none_iff, ← Option.not_isSome_iff_eq_none]
      exact fun sampled => dead (live sampled)

theorem sampling {picked : List (Slot × Sample)} (sound : c.Sound) (blank : c.learner.samples.size = 0)
    (live : c.contents.table.sampled ⊆ {i | i ∈ c.contents.table.live}) (started : c.learner.started = true)
    (limit : c.learner.maxRows = maxRows) (pick : c.Picked picked) :
    (c.sampling picked).Tabulated maxRows := by
  have sub := pick.sub.trans c.contents.table.candidates_sublist
  have size : (c.sampling picked).learner.samples.size = (picked.map (·.1)).length := by
    rw [Cache.sampling, Samples.size_pushAll, blank, Nat.zero_add, List.length_map, List.length_map]
  refine ⟨?_, (sound.sampling pick).sound.aligned, ?_, limit, fun fresh => ?_⟩
  · rw [size]
    exact Table.bijOn_of_listed (sub.nodup sound.contents.strung.nodup_live)
      (row_sampling sound blank live pick)
  · have room := pick.room
    rw [limit] at room
    rw [size, List.length_map]
    exact Nat.le_trans room (Nat.sub_le _ _)
  · rw [show (c.sampling picked).learner.started = c.learner.started from rfl, started] at fresh
    cases fresh

variable [Regressor μ]

/-- A cache that is ready for a snapshot has no rows, and what is still sampled is live. -/
theorem prepared (h : c.Tabulated maxRows) (sound : c.Sound) (ready : Prepared c d) :
    d.learner.samples.size = 0 ∧ d.contents.table.sampled ⊆ {i | i ∈ d.contents.table.live} ∧
      d.learner.started = true ∧ d.learner.maxRows = maxRows := by
  cases ready with
  | first unstarted =>
    have none := h.unstarted unstarted
    refine ⟨none, ?_, rfl, h.maxRows⟩
    rw [show Table.sampled _ = ∅ from h.sampled_eq_empty none]
    exact Set.empty_subset _
  | @trained result model started fit =>
    have cleared := sound.contents.unquarantined
    refine ⟨?_, fun i hi => ?_, ?_, ?_⟩
    · cases result <;> rfl
    · cases hg : c.contents.unquarantined.table.get? i with
      | none =>
        rw [Table.mem_sampled, Table.sample?_of_none hg] at hi
        cases hi
      | some g =>
        exact (cleared.sound.strung.mem_live_iff i).mpr ⟨g, hg, cleared.segments i g hg⟩
    · rw [← started]
      cases result <;> rfl
    · rw [← h.maxRows]
      cases result <;> rfl

theorem taught (h : c.Tabulated maxRows) (sound : c.Sound) (taught : Taught c d) : d.Tabulated maxRows := by
  rcases taught with ⟨-, rfl⟩ | ⟨-, b, picked, ready, pick, rfl⟩
  · exact h
  · obtain ⟨blank, live, started, limit⟩ := h.prepared sound ready
    exact .sampling (ready.settled sound).sound blank live started limit pick

end Tabulated

namespace Retains
variable {c d e : Cache μ}

theorem refl (c : Cache μ) : c.Retains c := ⟨Nat.le_refl _, fun _ _ _ hx => hx⟩

theorem relabelled (h : c.Retains d) {rows : Nat → Prop} (k : d.Relabelled rows e) : c.Retains e := by
  have runs : e.learner.runs = d.learner.runs := by
    obtain ⟨labels, e⟩ := k.learner.same
    rw [e]
    rfl
  refine ⟨by rw [runs]; exact h.later, fun same i x hx => ?_⟩
  rw [k.sample?]
  exact h.kept (runs.symm.trans same) i x hx

theorem taught [Regressor μ] (h : c.Retains d) {maxRows : Nat} (tabulated : d.Tabulated maxRows)
    (taught : Taught d e) : c.Retains e := by
  rcases taught with ⟨-, rfl⟩ | ⟨-, b, picked, ready, -, rfl⟩
  · exact h
  cases ready with
  | first unstarted =>
    -- There were no rows, so nothing was sampled that could get lost.
    refine ⟨h.later, fun same i x hx => ?_⟩
    have kept := h.kept same i x hx
    have none := tabulated.sampled_eq_empty (tabulated.unstarted unstarted)
    have sampled : i ∈ d.contents.table.sampled := by
      rw [Table.mem_sampled, kept]
      rfl
    rw [none] at sampled
    cases sampled
  | @trained result model started fit =>
    have more : (d.learner.trained result model d.account.clock).runs = d.learner.runs + 1 := by
      cases result with
      | ok _ => exact Nat.add_right_comm _ _ _
      | error _ => exact (Nat.add_assoc _ _ _).symm
    have later := h.later
    refine ⟨?_, fun same => ?_⟩
    · show c.learner.runs ≤ (d.learner.trained result model d.account.clock).runs
      omega
    · have same : (d.learner.trained result model d.account.clock).runs = c.learner.runs := same
      omega

end Retains

section run
variable [Regressor μ]

theorem keeps_tabulated (c : Cache μ) (maxRows : Nat) :
    Keeps (.ofModel μ) (fun (d : Cache μ) id => ¬d.contents.store.caches id = true) Sound
      fun d => d.Tabulated maxRows ∧ c.Retains d where
  begun d req _ h :=
    have same : d.Relabelled (fun _ => False)
        { d with contents := { d.contents with account := d.account.begun req } } := ⟨rfl, rfl, .refl _ _⟩
    ⟨h.1.relabelled same, h.2.relabelled same⟩
  check d req update sound h := (sound.settles_check req update).mono fun _ looked =>
    ⟨h.1.relabelled looked.relabelled, h.2.relabelled looked.relabelled⟩
  evict d req sound h := sound.settles_evict.mono fun _ done =>
    have relabelled := done.1.relabelled fun _ => False
    ⟨h.1.relabelled relabelled, h.2.relabelled relabelled⟩
  insert d req sound h missed room := (sound.settles_insert missed room).mono fun _ done =>
    ⟨h.1.relabelled done.relabelled, h.2.relabelled done.relabelled⟩
  remove d id sound h := (sound.settles_remove id).mono fun _ done =>
    ⟨h.1.relabelled done.relabelled, h.2.relabelled done.relabelled⟩
  settle d hit sound h := (sound.settles_teach Tolerance.allows_of_fit hit).mono fun e done => by
    obtain ⟨e, load, taught, rfl⟩ := done
    have tabulated := h.1.taught sound taught
    have retains := h.2.taught h.1 taught
    exact ⟨⟨tabulated.rows, tabulated.aligned, tabulated.room, tabulated.maxRows, tabulated.unstarted⟩,
      retains.later, retains.kept⟩

end run
end Cache

end CacheReplay.GLCache
