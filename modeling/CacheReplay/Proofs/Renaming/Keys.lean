import CacheReplay.Proofs.Renaming.Runs
import CacheReplay.Proofs.Simulation.Hints
import Mathlib.Data.Set.Function

set_option autoImplicit false

namespace CacheReplay

section
variable {f : Nat → Nat} {known : Set Nat} (inj : Set.InjOn f known)
include inj

theorem annotateFrom_rename (now : Int) (rs : List Request) (sub : ∀ r ∈ rs, r.id ∈ known) :
    (annotateFrom now (rs.map (Request.rename f))).1 = (annotateFrom now rs).1.map (Request.rename f) ∧
      ∀ id ∈ known, (annotateFrom now (rs.map (Request.rename f))).2[f id]? = (annotateFrom now rs).2[id]? := by
  induction rs generalizing now with
  | nil => simp [annotateFrom]
  | cons r rs ih =>
    obtain ⟨later, seen⟩ := ih (now + 1) fun u hu => sub u (List.mem_cons_of_mem r hu)
    have hr : r.id ∈ known := sub r List.mem_cons_self
    constructor
    · simp only [annotateFrom, List.map_cons, Request.rename_id, later, seen r.id hr]
      rfl
    · intro id hid
      simp only [annotateFrom, List.map_cons, Request.rename_id, Std.HashMap.getElem?_insert,
        beq_iff_eq, inj.eq_iff hr hid, seen id hid]

theorem annotateNextAccess_rename (rs : List Request) (sub : ∀ r ∈ rs, r.id ∈ known) :
    annotateNextAccess (rs.map (Request.rename f)) = (annotateNextAccess rs).map (Request.rename f) :=
  (annotateFrom_rename inj 1 rs sub).1

end

namespace KeyTable
variable {t : KeyTable}

/-- The list of keys and the index of their numbers are inverse to each other. -/
def Coherent (t : KeyTable) : Prop := ∀ key n, t.number? key = some n ↔ t.key? n = some key

theorem coherent_empty : empty.Coherent := by
  intro key n
  simp [empty, number?, key?]

theorem key?_intern (t : KeyTable) (key : String) (n : Nat) : (t.intern key).2.key? n =
    if t.number? key = none ∧ n = t.size then some key else t.key? n := by
  unfold intern
  cases t.number? key with
  | some m => simp
  | none => simp [key?, size, Array.getElem?_push]

theorem number?_intern_eq (t : KeyTable) (key k : String) : (t.intern key).2.number? k =
    if t.number? key = none ∧ key = k then some t.size else t.number? k := by
  unfold intern
  cases t.number? key with
  | some m => simp
  | none => simp [number?, Std.HashMap.getElem?_insert]

theorem Coherent.intern (h : t.Coherent) (key : String) : (t.intern key).2.Coherent := by
  intro k n
  have free : t.key? t.size = none := by simp [key?, size]
  have old := h k n
  rw [key?_intern, number?_intern_eq]
  by_cases fresh : t.number? key = none
  · by_cases same : key = k
    · subst same
      rw [fresh] at old
      by_cases last : n = t.size
      · simp [fresh, last]
      · simpa [fresh, last, eq_comm] using old
    · by_cases last : n = t.size
      · subst last
        simpa [fresh, same, free] using old
      · simpa [fresh, same, last] using old
  · simpa [fresh] using old

def renumber (t : KeyTable) (number : String → Nat) (n : Nat) : Nat := (t.key? n).elim 0 number

theorem renumber_of_key? {n : Nat} {key : String} (h : t.key? n = some key) (number : String → Nat) :
    t.renumber number n = number key := by
  rw [renumber, h]
  rfl

theorem renumber_injOn (h : t.Coherent) {number : String → Nat} {keys : Set String}
    (inj : Set.InjOn number keys) (sub : ∀ n key, t.key? n = some key → key ∈ keys) :
    Set.InjOn (t.renumber number) {n | (t.key? n).isSome = true} := by
  intro n hn m hm same
  obtain ⟨key, hkey⟩ := Option.isSome_iff_exists.mp hn
  obtain ⟨other, hother⟩ := Option.isSome_iff_exists.mp hm
  rw [renumber_of_key? hkey, renumber_of_key? hother] at same
  have equal : key = other := inj (sub n key hkey) (sub m other hother) same
  subst equal
  exact Option.some.inj (((h key n).mpr hkey).symm.trans ((h key m).mpr hother))

end KeyTable

namespace KeyedTrace

/-- What a client does to a keyed trace. -/
inductive Edit where
  | push (key : String) (size : Nat) (time : Int)
  | annotate

def Edit.key? : Edit → Option String
  | .push key _ _ => some key
  | .annotate => none

def edit (t : KeyedTrace) : Edit → KeyedTrace
  | .push key size time => (t.push key size time).2
  | .annotate => t.annotate

def ofEdits (edits : List Edit) : KeyedTrace := edits.foldl edit .empty

/-- The same edit of a trace whose keys have their numbers from elsewhere. -/
def Edit.perform (number : String → Nat) (rs : List Request) : Edit → List Request
  | .push key size time => rs ++ [.ofId (number key) size time]
  | .annotate => annotateNextAccess rs

def numbered (number : String → Nat) (edits : List Edit) : List Request :=
  edits.foldl (Edit.perform number) []

structure Renumbered (number : String → Nat) (keys : Set String) (t : KeyedTrace) (rs : List Request) :
    Prop where
  coherent : t.table.Coherent
  among : ∀ n key, t.table.key? n = some key → key ∈ keys
  known : ∀ r ∈ t.requests, (t.table.key? r.id).isSome = true
  requests : rs = t.requests.map (Request.rename (t.table.renumber number))

namespace Renumbered
variable {number : String → Nat} {keys : Set String} {t : KeyedTrace} {rs : List Request}

theorem empty : Renumbered number keys .empty [] where
  coherent := KeyTable.coherent_empty
  among n key h := by simp [KeyedTrace.empty, KeyTable.empty, KeyTable.key?] at h
  known r h := by simp [KeyedTrace.empty, KeyedTrace.requests] at h
  requests := rfl

variable (h : Renumbered number keys t rs)
include h

theorem push {key : String} (size : Nat) (time : Int) (hkey : key ∈ keys) :
    Renumbered number keys (t.push key size time).2 (rs ++ [.ofId (number key) size time]) := by
  have coherent := h.coherent.intern key
  have named : (t.table.intern key).2.key? (t.table.intern key).1 = some key :=
    (coherent key _).mp (t.table.number?_intern key)
  -- Numbers that were given out before keep their keys.
  have kept : ∀ r ∈ t.requests, (t.table.intern key).2.key? r.id = t.table.key? r.id := by
    intro r hr
    rw [KeyTable.key?_intern, if_neg]
    rintro ⟨-, last⟩
    have some := h.known r hr
    simp [last, KeyTable.key?, KeyTable.size] at some
  refine ⟨coherent, fun n k hk => ?_, fun r hr => ?_, ?_⟩
  · change (t.table.intern key).2.key? n = some k at hk
    rw [KeyTable.key?_intern] at hk
    split at hk
    · exact Option.some.inj hk ▸ hkey
    · exact h.among n k hk
  · show ((t.table.intern key).2.key? r.id).isSome = true
    rw [requests_push, List.mem_append, List.mem_singleton] at hr
    cases hr with
    | inl old =>
      rw [kept r old]
      exact h.known r old
    | inr new =>
      subst new
      exact Option.isSome_iff_exists.mpr ⟨key, named⟩
  · rw [requests_push, List.map_append, h.requests]
    congr 1
    · refine List.map_congr_left fun r hr => ?_
      show r.rename _ = r.rename ((t.table.intern key).2.renumber number)
      rw [Request.rename, Request.rename, KeyTable.renumber, KeyTable.renumber, kept r hr]
    · have given := KeyTable.renumber_of_key? named number
      simp only [List.map_cons, List.map_nil, Request.rename, Request.ofId, KeyedTrace.push, given]

theorem annotate (inj : Set.InjOn number keys) :
    Renumbered number keys t.annotate (annotateNextAccess rs) := by
  have same : (annotateNextAccess t.requests).map (·.id) = t.requests.map (·.id) := by
    have unhinted := congrArg (List.map Request.id) (annotateFrom_unhinted 1 t.requests)
    rwa [List.map_map, List.map_map] at unhinted
  refine ⟨h.coherent, h.among, fun r hr => ?_, ?_⟩
  · rw [requests_annotate] at hr
    have mem : r.id ∈ t.requests.map (·.id) := same ▸ List.mem_map_of_mem hr
    obtain ⟨u, hu, e⟩ := List.mem_map.mp mem
    show (t.table.key? r.id).isSome = true
    rw [← e]
    exact h.known u hu
  · rw [requests_annotate, h.requests]
    exact annotateNextAccess_rename (KeyTable.renumber_injOn h.coherent inj h.among) _ h.known

end Renumbered

theorem renumbered_ofEdits {number : String → Nat} {keys : Set String} (inj : Set.InjOn number keys)
    (edits : List Edit) (sub : ∀ e ∈ edits, ∀ key, e.key? = some key → key ∈ keys) :
    Renumbered number keys (ofEdits edits) (numbered number edits) := by
  refine List.foldl_rel .empty fun e he t rs h => ?_
  cases e with
  | push key size time => exact h.push size time (sub _ he key rfl)
  | annotate => exact h.annotate inj

end KeyedTrace
end CacheReplay
