import CacheReplay.Proofs.Admission
import CacheReplay.Proofs.Renaming.Arc
import CacheReplay.Proofs.Renaming.GLCache
import CacheReplay.Proofs.Renaming.Keys
import CacheReplay.Proofs.Renaming.Queues

set_option autoImplicit false

namespace CacheReplay
open EvictionPolicy

section
variable {σ τ : Type} [EvictionPolicy σ] [EvictionPolicy τ] {rel : σ → σ → Prop} {wrap : σ → τ}

def Wrapped (wrap : σ → τ) (rel : σ → σ → Prop) (c d : τ) : Prop :=
  ∃ s t, c = wrap s ∧ d = wrap t ∧ rel s t

omit [EvictionPolicy σ] [EvictionPolicy τ] in
theorem agree_wrapped {α : Type} {x y : Checked (α × σ)} (h : Alike (Agree rel) x y) :
    Alike (Agree (Wrapped wrap rel)) ((fun p => (p.1, wrap p.2)) <$> x) ((fun p => (p.1, wrap p.2)) <$> y) :=
  .map (h.mono fun _ _ agree => ⟨agree.1, _, _, rfl, rfl, agree.2⟩)

theorem Wraps.impartial {f : Nat → Nat} (w : Wraps wrap) (named : ∀ s t, name (wrap s) = name (wrap t))
    (p : Impartial f rel) : Impartial f (Wrapped wrap rel) where
  name := by
    rintro _ _ ⟨s, t, rfl, rfl, -⟩
    exact named t s
  account := by
    rintro _ _ ⟨s, t, rfl, rfl, h⟩
    rw [w.account, w.account, p.account h]
  evictable := by
    rintro _ _ ⟨s, t, rfl, rfl, h⟩
    rw [w.evictable, w.evictable, p.evictable h]
  withAccount := by
    rintro _ _ a ⟨s, t, rfl, rfl, h⟩
    rw [w.withAccount, w.withAccount]
    exact ⟨_, _, rfl, rfl, p.withAccount a h⟩
  check := by
    rintro _ _ req update ⟨s, t, rfl, rfl, h⟩
    rw [w.check, w.check]
    exact agree_wrapped (p.check req update h)
  insert := by
    rintro _ _ req ⟨s, t, rfl, rfl, h⟩
    rw [w.insert, w.insert]
    exact agree_wrapped (p.insert req h)
  evict := by
    rintro _ _ req ⟨s, t, rfl, rfl, h⟩
    rw [w.evict, w.evict]
    exact agree_wrapped (p.evict req h)
  remove := by
    rintro _ _ id ⟨s, t, rfl, rfl, h⟩
    rw [w.remove, w.remove]
    exact agree_wrapped (p.remove id h)
  settle := by
    rintro _ _ hit ⟨s, t, rfl, rfl, h⟩
    rw [w.settle, w.settle]
    exact .map ((p.settle hit h).mono fun _ _ kept => ⟨_, _, rfl, rfl, kept⟩)

end

/-- Changes some names by `f` and moves the others out of the way. -/
def spread (f : Nat → Nat) (ids : List Nat) (bound id : Nat) : Nat :=
  if id ∈ ids then f id else bound + 1 + id

theorem spread_of_mem (f : Nat → Nat) {ids : List Nat} (bound : Nat) {id : Nat} (h : id ∈ ids) :
    spread f ids bound id = f id := if_pos h

theorem spread_injective {f : Nat → Nat} {ids : List Nat} {bound : Nat}
    (inj : Set.InjOn f {id | id ∈ ids}) (below : ∀ id ∈ ids, f id ≤ bound) :
    Function.Injective (spread f ids bound) := by
  intro a b same
  unfold spread at same
  by_cases ha : a ∈ ids
  · have small := below a ha
    by_cases hb : b ∈ ids
    · rw [if_pos ha, if_pos hb] at same
      exact inj ha hb same
    · rw [if_pos ha, if_neg hb] at same
      omega
  · by_cases hb : b ∈ ids
    · have small := below b hb
      rw [if_neg ha, if_pos hb] at same
      omega
    · rw [if_neg ha, if_neg hb] at same
      omega

namespace AnyCache
open Regression
variable {μ : Type} [Regressor μ]

/-- A cache without its records; its counters, lists, marks of progress and model stay. -/
def stripped : AnyCache μ → AnyCache μ
  | fifo c => fifo ⟨{ c.queue with store := .empty }⟩
  | lru c => lru ⟨{ c.queue with store := .empty }⟩
  | clock c => clock { c with queue := { c.queue with store := .empty } }
  | sieve c => sieve { c with queue := { c.queue with store := .empty } }
  | arc c => arc { c with store := .empty }
  | glcache c => glcache { c with contents := { c.contents with store := .empty } }

/-- The second cache is in the state of the first one, with its objects renamed. -/
structure Corresponds (f : Nat → Nat) (c d : AnyCache μ) : Prop where
  account : account d = account c
  stripped : d.stripped = c.stripped
  caches : ∀ id, d.caches id = true ↔ ∃ k, f k = id ∧ c.caches k = true

theorem Corresponds.congr {f g : Nat → Nat} {c d : AnyCache μ} (h : Corresponds g c d)
    (same : ∀ k, c.caches k = true → g k = f k) : Corresponds f c d where
  account := h.account
  stripped := h.stripped
  caches id := by
    rw [h.caches]
    refine exists_congr fun k => and_congr_left fun cached => ?_
    rw [same k cached]

theorem exists_impartial {σ : Type} [EvictionPolicy σ] {f : Nat → Nat} {rel : σ → σ → Prop}
    {wrap : σ → AnyCache μ} {s : σ} (wraps : Wraps wrap) (named : ∀ s t, name (wrap s) = name (wrap t))
    (p : Impartial f rel) (shows : ∀ s t, rel s t → Corresponds f (wrap s) (wrap t)) (hs : rel s s) :
    ∃ same : AnyCache μ → AnyCache μ → Prop, Impartial f same ∧ same (wrap s) (wrap s) ∧
      ∀ c d, same c d → Corresponds f c d := by
  refine ⟨_, wraps.impartial named p, ⟨s, s, rfl, rfl, hs⟩, ?_⟩
  rintro _ _ ⟨s, t, rfl, rfl, h⟩
  exact shows s t h

theorem Fresh.impartial {c : AnyCache μ} (fresh : c.Fresh) {f : Nat → Nat} (inj : Function.Injective f) :
    ∃ same : AnyCache μ → AnyCache μ → Prop, Impartial f same ∧ same c c ∧
      ∀ c d, same c d → Corresponds f c d := by
  cases fresh with
  | fifo capacity overhead =>
    refine exists_impartial (wraps_of_passes (fun _ _ => rfl) (fun _ _ => rfl) fun _ _ => rfl)
      (fun _ _ => rfl) (Fifo.impartial inj) ?_ (ObjectQueue.renamed_empty capacity overhead)
    rintro ⟨q⟩ ⟨_⟩ ⟨s', hs, rfl⟩
    exact ⟨rfl, rfl, hs.caches_iff⟩
  | lru capacity overhead =>
    refine exists_impartial (wraps_of_passes (fun _ _ => rfl) (fun _ _ => rfl) fun _ _ => rfl)
      (fun _ _ => rfl) (Lru.impartial inj) ?_ (ObjectQueue.renamed_empty capacity overhead)
    rintro ⟨q⟩ ⟨_⟩ ⟨s', hs, rfl⟩
    exact ⟨rfl, rfl, hs.caches_iff⟩
  | clock capacity overhead bits accepted =>
    refine exists_impartial (wraps_of_passes (fun _ _ => rfl) (fun _ _ => rfl) fun _ _ => rfl)
      (fun _ _ => rfl) (Clock.impartial inj) ?_ ?_
    · rintro c _ ⟨_, ⟨s', hs, rfl⟩, rfl⟩
      exact ⟨rfl, rfl, hs.caches_iff⟩
    · unfold Clock.withBits at accepted
      split at accepted
      · cases accepted
        exact ⟨_, ObjectQueue.renamed_empty capacity overhead, rfl⟩
      · cases accepted
  | sieve capacity overhead =>
    refine exists_impartial (wraps_of_passes (fun _ _ => rfl) (fun _ _ => rfl) fun _ _ => rfl)
      (fun _ _ => rfl) (Sieve.impartial inj) ?_ ⟨_, ObjectQueue.renamed_empty capacity overhead, rfl⟩
    rintro c _ ⟨_, ⟨s', hs, rfl⟩, rfl⟩
    exact ⟨rfl, rfl, hs.caches_iff⟩
  | arc capacity overhead =>
    refine exists_impartial (wraps_of_passes (fun _ _ => rfl) (fun _ _ => rfl) fun _ _ => rfl)
      (fun _ _ => rfl) (Arc.impartial inj) ?_ ⟨_, Store.renamed_empty f, rfl⟩
    rintro c _ ⟨s', hs, rfl⟩
    exact ⟨rfl, rfl, hs.caches_iff⟩
  | glcache capacity overhead model accepted =>
    refine exists_impartial (wraps_of_passes (fun _ _ => rfl) (fun _ _ => rfl) fun _ _ => rfl)
      (fun _ _ => rfl) (GLCache.Cache.impartial inj) ?_
      (GLCache.Cache.renamed_ofConfig capacity overhead _ model)
    rintro c _ ⟨s', hs, rfl⟩
    exact ⟨rfl, rfl, hs.caches_iff⟩

/--
What holds of all functions that tell every name apart holds of those that tell
the names of a run apart. `run` is the run as renamed by a function, which does
not look at other names.
-/
theorem alike_of_injOn {α : Type} {f : Nat → Nat} {ids : List Nat}
    (inj : Set.InjOn f {id | id ∈ ids}) (run : (Nat → Nat) → Checked (α × AnyCache μ))
    (reads : ∀ g g' : Nat → Nat, (∀ id ∈ ids, g id = g' id) → run g = run g')
    (total : ∀ g, Function.Injective g → Alike (Agree (Corresponds g)) (run fun id => id) (run g)) :
    Alike (Agree (Corresponds f)) (run fun id => id) (run f) := by
  -- An object that is cached at the end is one of the run: otherwise it could be
  -- moved out of the way without changing the run, which would still cache it.
  have cached : ∀ p, run (fun id => id) = .ok p → ∀ k, p.2.caches k = true → k ∈ ids := by
    intro p result k hk
    by_contra other
    have apart : Function.Injective (spread (fun id => id) ids (ids.toFinset.sup id + k)) :=
      spread_injective (Set.injOn_id _) fun i hi =>
        Nat.le_add_right_of_le (Finset.le_sup (f := id) (List.mem_toFinset.mpr hi))
    have moved := total _ apart
    have unmoved : run (spread (fun id => id) ids (ids.toFinset.sup id + k)) = run fun id => id :=
      reads _ _ fun i hi => spread_of_mem _ _ hi
    rw [unmoved, result] at moved
    cases moved with
    | ok h =>
      obtain ⟨j, hj, -⟩ := (h.2.caches k).mp hk
      by_cases inside : j ∈ ids
      · rw [spread_of_mem _ _ inside] at hj
        exact other (hj ▸ inside)
      · rw [spread, if_neg inside] at hj
        omega
  have apart : Function.Injective (spread f ids (ids.toFinset.sup f)) :=
    spread_injective inj fun i hi => Finset.le_sup (f := f) (List.mem_toFinset.mpr hi)
  have renamed := total _ apart
  rw [reads _ f fun i hi => spread_of_mem f _ hi] at renamed
  generalize run (fun id => id) = x at cached renamed
  generalize run f = y at renamed
  cases renamed with
  | ok h => exact .ok ⟨h.1, h.2.congr fun k hk => spread_of_mem f _ (cached _ rfl k hk)⟩
  | error h => exact .error h

theorem Fresh.alike_replies {c : AnyCache μ} (fresh : c.Fresh) {f : Nat → Nat} (ops : List Operation)
    (inj : Set.InjOn f {id | id ∈ ops.map Operation.id}) : Alike (Agree (Corresponds f))
      (replies c ops) (replies c (ops.map (Operation.rename f))) := by
  have total : ∀ g, Function.Injective g → Alike (Agree (Corresponds g))
      (replies c (ops.map (Operation.rename fun id => id))) (replies c (ops.map (Operation.rename g))) := by
    intro g hg
    obtain ⟨same, impartial, start, shows⟩ := fresh.impartial hg
    rw [Operation.map_rename_id]
    exact (impartial.replies ops start).mono fun _ _ agree => ⟨agree.1, shows _ _ agree.2⟩
  have alike := alike_of_injOn inj (fun g => replies c (ops.map (Operation.rename g)))
    (fun g g' same => congrArg (replies c) (List.map_congr_left fun op hop =>
      op.rename_congr (same op.id (List.mem_map_of_mem hop)))) total
  rwa [Operation.map_rename_id] at alike

theorem Fresh.alike_simulate {c : AnyCache μ} (fresh : c.Fresh) {f : Nat → Nat} (rs : List Request)
    (w : Warmup) (inj : Set.InjOn f {id | id ∈ (w.preamble ++ rs).map (·.id)}) :
    Alike (Agree (Corresponds f)) (simulate rs c w)
      (simulate (rs.map (Request.rename f)) c (w.rename f)) := by
  have total : ∀ g, Function.Injective g → Alike (Agree (Corresponds g))
      (simulate (rs.map (Request.rename fun id => id)) c (w.rename fun id => id))
      (simulate (rs.map (Request.rename g)) c (w.rename g)) := by
    intro g hg
    obtain ⟨same, impartial, start, shows⟩ := fresh.impartial hg
    rw [Request.map_rename_id, Warmup.rename_id]
    exact (impartial.simulate rs w start).mono fun _ _ agree => ⟨agree.1, shows _ _ agree.2⟩
  have alike := alike_of_injOn inj
    (fun g => simulate (rs.map (Request.rename g)) c (w.rename g)) (fun g g' same => by
      have trace : rs.map (Request.rename g) = rs.map (Request.rename g') :=
        List.map_congr_left fun r hr => r.rename_congr (same r.id
          (List.mem_map_of_mem (List.mem_append_right _ hr)))
      have warmup : w.rename g = w.rename g' := w.rename_congr fun r hr => same r.id
        (List.mem_map_of_mem (List.mem_append_left _ hr))
      rw [trace, warmup]) total
  rwa [Request.map_rename_id, Warmup.rename_id] at alike

/--
Objects matter through their identity only. On a fresh cache of any policy, a run
and the run with its objects renamed so that different ones stay different get
the same answers and end in corresponding states; as every part of a run is a
run, this holds after each operation. A simulation of a keyed trace gives the
same statistics as that of the requests whose keys are numbered in any other way
from the start, if the numbers of the warmup are changed along. Both have a
result unless arithmetic leaves its range or the model faults.
-/
theorem names_immaterial {c : AnyCache μ} (fresh : c.Fresh) :
    (∀ (f : Nat → Nat) (ops : List Operation), Set.InjOn f {id | id ∈ ops.map Operation.id} →
      (Settles (.ofModel μ) (replies c ops) fun _ => True) ∧
      Alike (Agree (Corresponds f)) (replies c ops) (replies c (ops.map (Operation.rename f)))) ∧
    ∀ (number : String → Nat) (edits : List KeyedTrace.Edit) (w : Warmup),
      Set.InjOn number {key | ∃ e ∈ edits, e.key? = some key} →
      (∀ r ∈ w.preamble, ((KeyedTrace.ofEdits edits).table.key? r.id).isSome = true) →
      (Settles (.ofModel μ) (simulate (KeyedTrace.ofEdits edits).requests c w) fun _ => True) ∧
      Alike (Agree (Corresponds ((KeyedTrace.ofEdits edits).table.renumber number)))
        (simulate (KeyedTrace.ofEdits edits).requests c w)
        (simulate (KeyedTrace.numbered number edits) c
          (w.rename ((KeyedTrace.ofEdits edits).table.renumber number))) := by
  obtain ⟨sound, dependable, hc⟩ := fresh.dependable
  constructor
  · intro f ops inj
    have answered := dependable.settles_run c ops hc
    rw [run_eq_replies] at answered
    exact ⟨(settles_of_map answered).mono fun _ _ => trivial, fresh.alike_replies ops inj⟩
  · intro number edits w inj known
    refine ⟨(dependable.settles_simulate w _ c hc).mono fun _ _ => trivial, ?_⟩
    have made := KeyedTrace.renumbered_ofEdits inj edits fun e he key hkey => ⟨e, he, hkey⟩
    rw [made.requests]
    apply fresh.alike_simulate
    refine (KeyTable.renumber_injOn made.coherent inj made.among).mono fun id hid => ?_
    obtain ⟨r, hr, rfl⟩ := List.mem_map.mp hid
    cases List.mem_append.mp hr with
    | inl warming => exact known r warming
    | inr counted => exact made.known r counted

theorem names_immaterial_reversed :
    Set.InjOn (fun id => 9 - id)
      {id | id ∈ [Operation.get (.ofId 1 10 0), .get (.ofId 2 15 1)].map Operation.id} ∧
    (Settles (.ofModel Boosted) (replies (.arc (.empty 20 2) : AnyCache Boosted)
      [.get (.ofId 1 10 0), .get (.ofId 2 15 1)]) fun _ => True) ∧
    Alike (Agree (Corresponds fun id => 9 - id))
      (replies (.arc (.empty 20 2) : AnyCache Boosted) [.get (.ofId 1 10 0), .get (.ofId 2 15 1)])
      (replies (.arc (.empty 20 2))
        ([.get (.ofId 1 10 0), .get (.ofId 2 15 1)].map (Operation.rename fun id => 9 - id))) ∧
    Set.InjOn (fun key => if key = "a" then 7 else 3)
      {key | ∃ e ∈ [KeyedTrace.Edit.push "a" 10 0, .push "b" 15 1, .annotate], e.key? = some key} ∧
    (Settles (.ofModel Boosted) (simulate
      (KeyedTrace.ofEdits [.push "a" 10 0, .push "b" 15 1, .annotate]).requests
      (.arc (.empty 20 2) : AnyCache Boosted) .none) fun _ => True) ∧
    Alike (Agree (Corresponds ((KeyedTrace.ofEdits [.push "a" 10 0, .push "b" 15 1, .annotate]).table.renumber
        fun key => if key = "a" then 7 else 3)))
      (simulate (KeyedTrace.ofEdits [.push "a" 10 0, .push "b" 15 1, .annotate]).requests
        (.arc (.empty 20 2) : AnyCache Boosted) .none)
      (simulate (KeyedTrace.numbered (fun key => if key = "a" then 7 else 3)
        [.push "a" 10 0, .push "b" 15 1, .annotate]) (.arc (.empty 20 2)) .none) := by
  have apart : Set.InjOn (fun id => 9 - id)
      {id | id ∈ [Operation.get (.ofId 1 10 0), .get (.ofId 2 15 1)].map Operation.id} := by
    intro a ha b hb same
    simp [Operation.id, Request.ofId] at ha hb same
    omega
  have numbers : Set.InjOn (fun key => if key = "a" then 7 else 3)
      {key | ∃ e ∈ [KeyedTrace.Edit.push "a" 10 0, .push "b" 15 1, .annotate], e.key? = some key} := by
    intro a ha b hb same
    simp [KeyedTrace.Edit.key?] at ha hb same
    rcases ha with rfl | rfl <;> rcases hb with rfl | rfl <;> simp at same ⊢
  have both := names_immaterial (.arc 20 2 : (AnyCache.arc (.empty 20 2) : AnyCache Boosted).Fresh)
  have run := both.1 _ _ apart
  have simulation := both.2 _ _ .none numbers fun r hr => absurd hr List.not_mem_nil
  exact ⟨apart, run.1, run.2, numbers, simulation⟩

example : (simulate (KeyedTrace.numbered (fun key => if key = "a" then 7 else 3)
    [.push "a" 10 0, .push "b" 15 1, .push "a" 10 2]) (.arc (.empty 20 2) : AnyCache Boosted) .none).toOption.map
      (·.1) = some ⟨"ARC", 20, 3, 3, 35, 35, 0, 0, 1, 12⟩ := by cbv

end AnyCache
end CacheReplay
