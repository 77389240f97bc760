import CacheReplay.Proofs.Account
import Mathlib.Data.Set.Card

set_option autoImplicit false

/-!
# Stores as catalogues

A catalogue maps every object to at most one live record and at most one ghost,
each with the cell that it is in. A store refines one: starting empty, every
list of commands has the replies and the effects that the catalogue describes,
whatever handles the commands name, and after each of them the store answers
every question as the catalogue does.
-/
namespace CacheReplay

variable {μ : Type}

theorem Arena.ascending_toList {α : Type} (a : Arena α) : (a.toList.map (·.1)).Pairwise (· < ·) := by
  rw [toList_fst]
  exact List.pairwise_lt_range.filter _

/-- What is known of one object: its live record and its ghost, each with its cell. -/
structure Dossier (μ : Type) where
  live : Option (Slot × Record μ)
  ghost : Option (Slot × Record μ)

namespace Dossier

def of (e : Dossier μ) (ghost : Bool) : Option (Slot × Record μ) := if ghost then e.ghost else e.live

def put (e : Dossier μ) (ghost : Bool) (v : Option (Slot × Record μ)) : Dossier μ :=
  if ghost then { e with ghost := v } else { e with live := v }

theorem of_put (e : Dossier μ) (k l : Bool) (v : Option (Slot × Record μ)) :
    (e.put k v).of l = if k = l then v else e.of l := by
  cases k <;> cases l <;> rfl

theorem ext_of {e f : Dossier μ} (h : ∀ kind, e.of kind = f.of kind) : e = f := by
  obtain ⟨live, ghost⟩ := e
  obtain ⟨live', ghost'⟩ := f
  have alive : live = live' := h false
  have gone : ghost = ghost' := h true
  rw [alive, gone]

end Dossier

abbrev Catalogue (μ : Type) : Type := Nat → Dossier μ

inductive Store.Command (μ : Type) where
  | insert (req : Request) (now : Int) (tag : μ)
  | delete (i : Slot)
  | demote (i : Slot)
  | fork (i : Slot)

inductive Store.Reply (μ : Type) where
  | handle (i : Option Slot)
  | freed (r : Option (Record μ))

def Record.fresh (req : Request) (now : Int) (tag : μ) : Record μ :=
  ⟨req.id, req.size, req.time, req.time, now, req.next, req.ttl.map (req.time + ·), .detached, false,
    tag⟩

/-- The ghost that a live record leaves behind. -/
def Record.shade (r : Record μ) : Record μ := { r with ghost := true, links := .detached }

namespace Catalogue
open Store (Command Reply)

def empty : Catalogue μ := fun _ => ⟨none, none⟩

/-- Files `v` as the live record or the ghost of an object, or strikes that record out. -/
def amend (d : Catalogue μ) (id : Nat) (ghost : Bool) (v : Option (Slot × Record μ)) : Catalogue μ :=
  Function.update d id ((d id).put ghost v)

def Holds (d : Catalogue μ) (i : Slot) (r : Record μ) : Prop := (d r.id).of r.ghost = some (i, r)

def Vacant (d : Catalogue μ) (i : Slot) : Prop := ∀ r, ¬ d.Holds i r

/-- An admission asks for an object without a live record and an expiry within the range of times. -/
def Accepts (d : Catalogue μ) : Command μ → Prop
  | .insert req _ _ => (d req.id).live = none ∧ ∀ ttl ∈ req.ttl, IsTime (req.time + ttl)
  | _ => True

def Unfit (d : Catalogue μ) : Command μ → Prop
  | .insert _ _ _ => False
  | .delete i => d.Vacant i
  | .demote i => ∀ r, d.Holds i r → r.ghost = true
  | .fork i => ∀ r, d.Holds i r → r.ghost = true

/-- What each command replies and does. The cell of a new record is any vacant one. -/
inductive Step (d : Catalogue μ) : Command μ → Reply μ → Catalogue μ → Prop where
  | insert {req : Request} {now : Int} {tag : μ} {i : Slot} (fit : d.Accepts (.insert req now tag))
      (vacant : d.Vacant i) :
      Step d (.insert req now tag) (.handle (some i)) (d.amend req.id false (some (i, .fresh req now tag)))
  | delete {i : Slot} {r : Record μ} (held : d.Holds i r) :
      Step d (.delete i) (.freed (some r)) (d.amend r.id r.ghost none)
  | demote {i : Slot} {r : Record μ} (held : d.Holds i r) (live : r.ghost = false) :
      Step d (.demote i) (.freed ((d r.id).ghost.map (·.2)))
        ((d.amend r.id false none).amend r.id true (some (i, { r with ghost := true })))
  | fork {i j : Slot} {r : Record μ} (held : d.Holds i r) (live : r.ghost = false)
      (vacant : d.Vacant j) :
      Step d (.fork i) (.handle (some j)) (d.amend r.id true (some (j, r.shade)))
  | delete_unfit {i : Slot} (unfit : d.Unfit (.delete i)) : Step d (.delete i) (.freed none) d
  | demote_unfit {i : Slot} (unfit : d.Unfit (.demote i)) : Step d (.demote i) (.freed none) d
  | fork_unfit {i : Slot} (unfit : d.Unfit (.fork i)) : Step d (.fork i) (.handle none) d

inductive Steps : Catalogue μ → List (Command μ) → List (Reply μ) → Catalogue μ → Prop where
  | nil (d : Catalogue μ) : Steps d [] [] d
  | cons {d e f : Catalogue μ} {command : Command μ} {reply : Reply μ} {commands : List (Command μ)}
      {replies : List (Reply μ)} (first : d.Step command reply e) (rest : Steps e commands replies f) :
      Steps d (command :: commands) (reply :: replies) f

/-- A newer ghost of the object of `r` takes its place. -/
def Displaces (d : Catalogue μ) (command : Command μ) (r : Record μ) : Prop :=
  r.ghost = true ∧ ∃ k u, (d r.id).live = some (k, u) ∧ (command = .demote k ∨ command = .fork k)

def Keeps (d : Catalogue μ) (command : Command μ) (e : Catalogue μ) : Prop :=
  ∀ i r, d.Holds i r → e.Holds i r ∨ command = .delete i ∨
    (command = .demote i ∧ e.Holds i { r with ghost := true }) ∨ d.Displaces command r

theorem of_amend (d : Catalogue μ) (id : Nat) (k : Bool) (v : Option (Slot × Record μ)) (id' : Nat)
    (l : Bool) : (d.amend id k v id').of l = if id' = id ∧ k = l then v else (d id').of l := by
  unfold amend
  by_cases e : id' = id
  · subst e
    rw [Function.update_self, Dossier.of_put]
    simp
  · rw [Function.update_of_ne e, if_neg fun h => e h.1]

theorem amend_of_eq {d : Catalogue μ} {id : Nat} {k : Bool} {v : Option (Slot × Record μ)}
    (h : (d id).of k = v) : d.amend id k v = d := by
  funext id'
  apply Dossier.ext_of
  intro l
  rw [of_amend]
  split
  · rename_i e
    rw [e.1, ← e.2, h]
  · rfl

theorem amend_amend (d : Catalogue μ) (id : Nat) (k : Bool) (v w : Option (Slot × Record μ)) :
    (d.amend id k v).amend id k w = d.amend id k w := by
  funext id'
  apply Dossier.ext_of
  intro l
  rw [of_amend, of_amend, of_amend]
  split <;> rfl

def Files (get : Slot → Option (Record μ)) (d : Catalogue μ) : Prop :=
  ∀ kind id i r, (d id).of kind = some (i, r) ↔ get i = some r ∧ r.id = id ∧ r.ghost = kind

namespace Files
variable {get : Slot → Option (Record μ)} {d : Catalogue μ} (h : Files get d)
include h

theorem holds_iff (i : Slot) (r : Record μ) : d.Holds i r ↔ get i = some r :=
  (h r.ghost r.id i r).trans ⟨fun p => p.1, fun p => ⟨p, rfl, rfl⟩⟩

theorem vacant_iff (i : Slot) : d.Vacant i ↔ get i = none := by
  rw [Option.eq_none_iff_forall_ne_some]
  exact forall_congr' fun r => not_congr (h.holds_iff i r)

theorem unique {e : Catalogue μ} (k : Files get e) : d = e := by
  funext id
  apply Dossier.ext_of
  intro kind
  apply Option.ext
  rintro ⟨i, r⟩
  rw [h, k]

theorem lose (after : Slot → Option (Record μ)) {i : Slot} {r : Record μ} (hr : get i = some r)
    (off : ∀ j, after j = if i = j then none else get j) : Files after (d.amend r.id r.ghost none) := by
  intro kind id j u
  rw [of_amend, off]
  by_cases e : id = r.id ∧ r.ghost = kind
  · -- The object has no other record of this kind.
    rw [if_pos e]
    simp only [reduceCtorEq, false_iff, not_and]
    intro hu hid hk
    split at hu
    · cases hu
    · rename_i other
      have there := (h kind id j u).mpr ⟨hu, hid, hk⟩
      have here := (h kind id i r).mpr ⟨hr, e.1.symm, e.2⟩
      rw [there] at here
      cases here
      exact other rfl
  · rw [if_neg e, h]
    split
    · rename_i same
      subst same
      simp only [reduceCtorEq, false_and, iff_false]
      rintro ⟨hu, hid, hk⟩
      cases hr.symm.trans hu
      exact e ⟨hid.symm, hk⟩
    · exact Iff.rfl

theorem gain (after : Slot → Option (Record μ)) {i : Slot} {r : Record μ} (free : get i = none)
    (none : (d r.id).of r.ghost = none)
    (off : ∀ j, after j = if i = j then some r else get j) :
    Files after (d.amend r.id r.ghost (some (i, r))) := by
  intro kind id j u
  rw [of_amend, off]
  by_cases e : id = r.id ∧ r.ghost = kind
  · rw [if_pos e, Option.some.injEq, Prod.mk.injEq]
    split
    · rename_i same
      subst same
      constructor
      · rintro ⟨-, rfl⟩
        exact ⟨rfl, e.1.symm, e.2⟩
      · rintro ⟨hu, -, -⟩
        cases hu
        exact ⟨rfl, rfl⟩
    · rename_i other
      constructor
      · rintro ⟨same, -⟩
        exact absurd same other
      · rintro ⟨hu, hid, hk⟩
        have there := (h kind id j u).mpr ⟨hu, hid, hk⟩
        rw [e.1, ← e.2, none] at there
        cases there
  · rw [if_neg e, h]
    split
    · rename_i same
      subst same
      constructor
      · rintro ⟨hu, -, -⟩
        cases free.symm.trans hu
      · rintro ⟨hu, hid, hk⟩
        cases hu
        exact absurd ⟨hid.symm, hk⟩ e
    · exact Iff.rfl

theorem displace (after : Slot → Option (Record μ)) (id : Nat) (off : ∀ j, after j =
    if (d id).ghost.map (·.1) = some j then none else get j) :
    Files after (d.amend id true none) := by
  cases e : (d id).ghost with
  | none =>
    rw [amend_of_eq (show (d id).of true = none from e)]
    have same : after = get := by
      funext j
      rw [off, e]
      rfl
    rw [same]
    exact h
  | some p =>
    obtain ⟨k, g⟩ := p
    obtain ⟨hg, hid, ghost⟩ := (h true id k g).mp e
    have lost := h.lose after hg fun j => by
      rw [off, e]
      simp
    rwa [hid, ghost] at lost

end Files

/-- A command moves no record that it neither frees nor displaces. -/
theorem Step.keeps {d e : Catalogue μ} {command : Command μ} {reply : Reply μ}
    (step : d.Step command reply e) : d.Keeps command e := by
  intro i r held
  unfold Holds at held ⊢
  cases step with
  | delete_unfit | demote_unfit | fork_unfit => exact .inl held
  | @insert req now tag j fit vacant =>
    refine .inl ?_
    rw [of_amend, if_neg, held]
    rintro ⟨hid, hk⟩
    have absent : (d r.id).of r.ghost = none := by
      rw [← hk, hid]
      exact fit.1
    cases absent.symm.trans held
  | @delete j u hu =>
    by_cases same : r.id = u.id ∧ u.ghost = r.ghost
    · refine .inr (.inl ?_)
      have there : (d u.id).of u.ghost = some (j, u) := hu
      rw [← same.1, same.2, held] at there
      cases there
      rfl
    · refine .inl ?_
      rw [of_amend, if_neg same, held]
  | @demote j u hu live =>
    by_cases same : r.id = u.id
    · have there : (d r.id).of false = some (j, u) := by
        rw [same, ← live]
        exact hu
      cases ghost : r.ghost with
      | true => exact .inr (.inr (.inr ⟨ghost, j, u, there, .inl rfl⟩))
      | false =>
        rw [ghost, there] at held
        cases held
        refine .inr (.inr (.inl ⟨rfl, ?_⟩))
        rw [of_amend, if_pos ⟨rfl, rfl⟩]
    · refine .inl ?_
      rw [of_amend, if_neg fun p => same p.1, of_amend, if_neg fun p => same p.1, held]
  | @fork j k u hu live vacant =>
    by_cases same : r.id = u.id ∧ true = r.ghost
    · have there : (d r.id).of false = some (j, u) := by
        rw [same.1, ← live]
        exact hu
      exact .inr (.inr (.inr ⟨same.2.symm, j, u, there, .inr rfl⟩))
    · refine .inl ?_
      rw [of_amend, if_neg same, held]

end Catalogue

namespace Store
open Catalogue

def obey (s : Store μ) : Command μ → Checked (Reply μ × Store μ)
  | .insert req now tag => do
    let (i, s) ← s.insert req now tag
    pure (.handle (some i), s)
  | .delete i => do
    let (r, s) ← s.delete i
    pure (.freed r, s)
  | .demote i => do
    let (r, s) ← s.demote i
    pure (.freed r, s)
  | .fork i => pure (.handle (s.forkGhost i).1, (s.forkGhost i).2)

def obeyAll (s : Store μ) : List (Command μ) → Checked (List (Reply μ) × Store μ)
  | [] => pure ([], s)
  | command :: commands => do
    let (reply, s) ← s.obey command
    let (replies, s) ← s.obeyAll commands
    pure (reply :: replies, s)

/-- The store answers every question as the catalogue does. -/
structure Reflects (s : Store μ) (d : Catalogue μ) : Prop where
  filed : ∀ id ghost i r, (d id).of ghost = some (i, r) → r.id = id ∧ r.ghost = ghost
  find?_eq : ∀ id, s.find? id = (d id).live.map (·.1)
  findGhost?_eq : ∀ id, s.findGhost? id = (d id).ghost.map (·.1)
  get?_iff : ∀ i r, s.get? i = some r ↔ d.Holds i r
  mem_toList : ∀ i r, (i, r) ∈ s.toList ↔ d.Holds i r
  mem_liveList : ∀ i r, (i, r) ∈ s.liveList ↔ d.Holds i r ∧ r.ghost = false
  ascending : (s.toList.map (·.1)).Pairwise (· < ·)
  ascending_live : (s.liveList.map (·.1)).Pairwise (· < ·)
  size_eq : s.size = {id | (d id).live.isSome}.ncard
  ghostCount_eq : s.ghostCount = .ok {id | (d id).ghost.isSome}.ncard
  audit_eq : s.audit = pure ()

/-- What the store makes of the next command. -/
structure Answers (s : Store μ) (d : Catalogue μ) (command : Command μ) : Prop where
  yields : d.Accepts command → Yields (s.obey command) fun q =>
    ∃ e, d.Step command q.1 e ∧ d.Keeps command e ∧ q.2.Reflects e
  inert : d.Unfit command → ∃ reply, s.obey command = .ok (reply, s)
  refuses : ¬ d.Accepts command → ∃ fault, s.obey command = .error fault

/-- A consistent store together with the catalogue of its records. -/
structure Catalogued (s : Store μ) (d : Catalogue μ) : Prop where
  consistent : s.Consistent
  files : Files s.get? d

def catalogue (s : Store μ) : Catalogue μ := fun id =>
  ⟨(s.find? id).bind fun i => (s.get? i).map fun r => (i, r),
    (s.findGhost? id).bind fun i => (s.get? i).map fun r => (i, r)⟩

theorem Consistent.catalogued {s : Store μ} (h : s.Consistent) : s.Catalogued s.catalogue where
  consistent := h
  files kind id i r := by
    have entry : ∀ {m : Option Slot}, (m = some i ↔ ∃ u, s.get? i = some u ∧ u.id = id ∧ u.ghost = kind) →
        ((m.bind fun j => (s.get? j).map fun u => (j, u)) = some (i, r) ↔
          s.get? i = some r ∧ r.id = id ∧ r.ghost = kind) := by
      intro m found
      rw [Option.bind_eq_some_iff]
      constructor
      · rintro ⟨j, hj, e⟩
        obtain ⟨u, hu, same⟩ := Option.map_eq_some_iff.mp e
        cases same
        obtain ⟨v, hv, filed⟩ := found.mp hj
        cases hu.symm.trans hv
        exact ⟨hu, filed⟩
      · rintro ⟨hr, filed⟩
        exact ⟨i, found.mpr ⟨r, hr, filed⟩, by rw [hr]; rfl⟩
    cases kind with
    | false => exact entry (h.find?_eq_some_iff id i)
    | true => exact entry (h.findGhost?_eq_some_iff id i)

theorem catalogued_empty : (empty : Store μ).Catalogued .empty where
  consistent := consistent_empty
  files kind id i r := by
    have free : (empty : Store μ).get? i = none := Arena.get?_empty i
    have absent : ((Catalogue.empty : Catalogue μ) id).of kind = none := by
      cases kind <;> rfl
    simp [free, absent]

namespace Catalogued
variable {s : Store μ} {d : Catalogue μ} (h : s.Catalogued d)
include h

theorem slotOf_eq (kind : Bool) (id : Nat) : s.slotOf kind id = ((d id).of kind).map (·.1) := by
  apply Option.ext
  intro i
  rw [h.consistent.indexes, Option.map_eq_some_iff]
  constructor
  · rintro ⟨r, hr, hid, hk⟩
    exact ⟨(i, r), (h.files kind id i r).mpr ⟨hr, hid, hk⟩, rfl⟩
  · rintro ⟨⟨j, r⟩, e, rfl⟩
    exact ⟨r, (h.files kind id j r).mp e⟩

theorem total_eq (kind : Bool) :
    s.records.total (Record.unit kind) = {id | ((d id).of kind).isSome}.ncard := by
  let named := s.index.toList.filter fun e => (e.2.of kind).isSome
  have ids : {id | ((d id).of kind).isSome} = ((named.map (·.1)).toFinset : Set Nat) := by
    ext id
    rw [Set.mem_ofPred_eq, Finset.mem_coe, List.mem_toFinset, ← Option.isSome_map, ← h.slotOf_eq]
    simp only [named, List.mem_map, List.mem_filter, Prod.exists, exists_and_right, exists_eq_right,
      Std.HashMap.mem_toList_iff_getElem?_eq_some, slotOf]
    cases s.index[id]? <;> simp
  have distinct : (named.map (·.1)).Nodup :=
    (List.pairwise_map.mpr (s.index.distinct_keys_toList.imp fun apart => by simpa using apart)).sublist
      (List.filter_sublist.map _)
  have slots : ∀ l : List (Nat × IndexEntry), (l.flatMap fun e => (e.2.of kind).toList).length =
      (l.filter fun e => (e.2.of kind).isSome).length := by
    intro l
    induction l with
    | nil => rfl
    | cons e l ih => cases k : e.2.of kind <;> simp [k, ih, Nat.add_comm]
  rw [ids, Set.ncard_coe_finset, List.toFinset_card_of_nodup distinct, List.length_map,
    ← h.consistent.length_indexedSlots]
  exact slots _

theorem reflects : s.Reflects d where
  filed id ghost i r e := ((h.files ghost id i r).mp e).2
  find?_eq := h.slotOf_eq false
  findGhost?_eq := h.slotOf_eq true
  get?_iff i r := (h.files.holds_iff i r).symm
  mem_toList i r := (s.records.mem_toList_iff i r).trans (h.files.holds_iff i r).symm
  mem_liveList i r := by
    rw [liveList, List.mem_filter, toList, s.records.mem_toList_iff, h.files.holds_iff]
    simp [get?]
  ascending := s.records.ascending_toList
  ascending_live := s.records.ascending_toList.sublist (List.filter_sublist.map _)
  size_eq := h.consistent.counted.trans (h.total_eq false)
  ghostCount_eq := h.consistent.ghostCount_eq.trans (congrArg _ (h.total_eq true))
  audit_eq := h.consistent.audit_eq

theorem insert_refuses (req : Request) (now : Int) (tag : μ) (caches : (d req.id).live ≠ none) :
    s.insert req now tag = .error (.alreadyCached req.id) := by
  have present : s.caches req.id = true := by
    rw [Store.caches, show s.find? req.id = _ from h.slotOf_eq false req.id, Option.isSome_map,
      Option.isSome_iff_ne_none]
    exact caches
  simp only [Store.insert, isSome_live_entry, present, if_true]
  rfl

theorem yields_insert {req : Request} {now : Int} {tag : μ} (fit : d.Accepts (.insert req now tag)) :
    Yields (s.insert req now tag) fun p => d.Vacant p.1 ∧
      p.2.Catalogued (d.amend req.id false (some (p.1, .fresh req now tag))) := by
  obtain ⟨absent, time⟩ := fit
  have free : s.find? req.id = none := by
    rw [show s.find? req.id = _ from h.slotOf_eq false req.id]
    exact congrArg (Option.map (·.1)) absent
  have answer : Yields (s.insert req now tag) fun _ => True := by
    have made : Yields (Record.ofRequest req now tag) fun _ => True := by
      unfold Record.ofRequest
      have expiry : Yields (req.ttl.mapM (addTime req.time ·)) fun _ => True := by
        cases ttl : req.ttl with
        | none => exact yields_pure trivial
        | some t =>
          have sum : addTime req.time t = .ok (req.time + t) := if_pos (time t ttl)
          exact yields_map ⟨_, sum, trivial⟩
      exact yields_bind expiry fun _ _ => yields_pure trivial
    simp only [Store.insert, isSome_live_entry, caches, free, Option.isSome_none, Bool.false_eq_true,
      if_false]
    exact yields_bind made fun _ _ => yields_pure trivial
  have admitted := h.consistent.settles_insert (t := .any) now tag free
  have expiring := h.consistent.settles_insert_expiry (t := .any) now tag free
  refine (answer.and (admitted.and expiring)).mono ?_
  rintro ⟨i, s'⟩ ⟨-, admits, expires⟩
  dsimp only at admits expires ⊢
  obtain ⟨expiry, record⟩ := admits.record
  have fresh : s'.get? i = some (.fresh req now tag) := by
    rw [record, Record.fresh, ← expires _ record]
  refine ⟨(h.files.vacant_iff i).mpr admits.free, admits.consistent, ?_⟩
  refine h.files.gain s'.get? (r := .fresh req now tag) admits.free absent fun j => ?_
  split
  · rename_i e
    rw [← e, fresh]
  · rename_i e
    exact admits.other j (Ne.symm e)

theorem eq_catalogue : d = s.catalogue := h.files.unique h.consistent.catalogued.files

theorem without {i : Slot} {r : Record μ} (held : d.Holds i r) :
    (s.without i).Catalogued (d.amend r.id r.ghost none) := by
  have hr := (h.files.holds_iff i r).mp held
  obtain ⟨consistent, get⟩ := h.consistent.without hr
  exact ⟨consistent, h.files.lose _ hr get⟩

/-- The live record of an object loses its entry, and the object its ghost, before the record is filed again. -/
theorem demoted {i : Slot} {r : Record μ} (held : d.Holds i r) (live : r.ghost = false) :
    s.demote i = .ok ((d r.id).ghost.map (·.2), s.demoted i) ∧ (s.demoted i).Catalogued
      ((d.amend r.id false none).amend r.id true (some (i, { r with ghost := true }))) := by
  have hr := (h.files.holds_iff i r).mp held
  obtain ⟨consistent, self, other⟩ := h.consistent.demoted hr live
  have older : s.findGhost? r.id = (d r.id).ghost.map (·.1) := h.slotOf_eq true r.id
  constructor
  · have freed : (s.findGhost? r.id).bind s.get? = (d r.id).ghost.map (·.2) := by
      rw [older]
      cases e : (d r.id).ghost with
      | none => rfl
      | some p => exact ((h.files true r.id p.1 p.2).mp e).1
    rw [h.consistent.demote_eq hr live, freed]
  · have lost := h.files.lose (fun j => if i = j then none else s.get? j) hr fun _ => rfl
    rw [live] at lost
    have ghost : (d.amend r.id false none r.id).ghost = (d r.id).ghost :=
      (of_amend d r.id false none r.id true).trans (if_neg fun p => Bool.noConfusion p.2)
    have displaced := lost.displace
      (fun j => if i = j ∨ s.findGhost? r.id = some j then none else s.get? j) r.id fun j => by
        rw [ghost, ← older]
        by_cases e : s.findGhost? r.id = some j <;> by_cases same : i = j <;> simp [e, same]
    have filed := displaced.gain (s.demoted i).get? (i := i) (r := { r with ghost := true }) (by simp)
      ((of_amend _ _ _ _ _ _).trans (if_pos ⟨rfl, rfl⟩)) fun j => by
        split
        · rename_i e
          rw [← e, self]
        · rename_i e
          rw [other j (Ne.symm e)]
          simp [e]
    rw [show ({ r with ghost := true } : Record μ).id = r.id from rfl,
      show ({ r with ghost := true } : Record μ).ghost = true from rfl, amend_amend] at filed
    exact ⟨consistent, filed⟩

theorem forkGhost {i : Slot} {r : Record μ} (held : d.Holds i r) (live : r.ghost = false) :
    ∃ j, (s.forkGhost i).1 = some j ∧ d.Vacant j ∧
      (s.forkGhost i).2.Catalogued (d.amend r.id true (some (j, r.shade))) := by
  have hr := (h.files.holds_iff i r).mp held
  obtain ⟨j, reply, vacant, consistent, self, other⟩ := h.consistent.forkGhost hr live
  have older : s.findGhost? r.id = (d r.id).ghost.map (·.1) := h.slotOf_eq true r.id
  have displaced := h.files.displace
    (fun k => if s.findGhost? r.id = some k then none else s.get? k) r.id fun k => by rw [older]
  have filed := displaced.gain (s.forkGhost i).2.get? (i := j) (r := r.shade) (by simp [vacant])
    ((of_amend _ _ _ _ _ _).trans (if_pos ⟨rfl, rfl⟩)) fun k => by
      split
      · rename_i e
        rw [← e, self]
        rfl
      · rename_i e
        exact other k (Ne.symm e)
  rw [show r.shade.id = r.id from rfl, show r.shade.ghost = true from rfl, amend_amend] at filed
  exact ⟨j, reply, (h.files.vacant_iff j).mpr vacant, consistent, filed⟩

theorem modify {i : Slot} {r : Record μ} (held : d.Holds i r) {f : Record μ → Record μ}
    (same : (f r).id = r.id ∧ (f r).ghost = r.ghost) :
    (s.modify i f).Catalogued (d.amend r.id r.ghost (some (i, f r))) := by
  have hr := (h.files.holds_iff i r).mp held
  have only : ∀ u, s.get? i = some u → u = r := fun u hu => Option.some.inj (hu.symm.trans hr)
  have lost := h.files.lose (fun j => if i = j then none else s.get? j) hr fun _ => rfl
  have filed := lost.gain (s.modify i f).get? (i := i) (r := f r) (if_pos rfl)
    ((of_amend _ _ _ _ _ _).trans (if_pos ⟨same.1, same.2.symm⟩)) fun j => by
      rw [get?_modify]
      split
      · rename_i e
        rw [← e, hr]
        rfl
      · rfl
  rw [same.1, same.2, amend_amend] at filed
  exact ⟨h.consistent.modify i fun u hu => by rw [only u hu]; exact same, filed⟩

/-- A command that names no record it could act on leaves the store as it is. -/
theorem inert {command : Command μ} (unfit : d.Unfit command) : ∃ reply,
    s.obey command = .ok (reply, s) ∧ d.Step command reply d := by
  cases command with
  | insert => exact unfit.elim
  | delete i =>
    have free : s.records.get? i = none := (h.files.vacant_iff i).mp unfit
    refine ⟨.freed none, ?_, .delete_unfit unfit⟩
    rw [obey, delete_of_get?_eq_none free]
    rfl
  | demote i =>
    refine ⟨.freed none, ?_, .demote_unfit unfit⟩
    have stays : s.demote i = .ok (none, s) := by
      unfold Store.demote
      cases hr : s.get? i with
      | none => rfl
      | some r => exact if_pos (unfit r ((h.files.holds_iff i r).mpr hr))
    rw [obey, stays]
    rfl
  | fork i =>
    refine ⟨.handle none, ?_, .fork_unfit unfit⟩
    have stays : s.forkGhost i = (none, s) := by
      unfold Store.forkGhost
      cases hr : s.get? i with
      | none => rfl
      | some r => exact if_pos (unfit r ((h.files.holds_iff i r).mpr hr))
    simp only [obey, stays]
    rfl

theorem yields_obey {command : Command μ} (fit : d.Accepts command) :
    Yields (s.obey command) fun q => ∃ e, d.Step command q.1 e ∧ q.2.Catalogued e := by
  by_cases unfit : d.Unfit command
  · obtain ⟨reply, e, step⟩ := h.inert unfit
    exact ⟨_, e, d, step, h⟩
  · cases command with
    | insert req now tag =>
      refine yields_bind (h.yields_insert fit) ?_
      rintro ⟨i, s'⟩ ⟨vacant, kept⟩
      exact yields_pure ⟨_, .insert fit vacant, kept⟩
    | delete i =>
      obtain ⟨r, held⟩ : ∃ r, d.Holds i r := by
        simpa [Unfit, Vacant] using unfit
      rw [obey, h.consistent.delete_eq, (h.files.holds_iff i r).mp held]
      exact yields_pure ⟨_, .delete held, h.without held⟩
    | demote i =>
      obtain ⟨r, held, live⟩ : ∃ r, d.Holds i r ∧ r.ghost = false := by
        simpa [Unfit] using unfit
      obtain ⟨reply, kept⟩ := h.demoted held live
      rw [obey, reply]
      exact yields_pure ⟨_, .demote held live, kept⟩
    | fork i =>
      obtain ⟨r, held, live⟩ : ∃ r, d.Holds i r ∧ r.ghost = false := by
        simpa [Unfit] using unfit
      obtain ⟨j, reply, vacant, kept⟩ := h.forkGhost held live
      refine yields_pure ⟨_, ?_, kept⟩
      rw [reply]
      exact .fork held live vacant

theorem refuses {command : Command μ} (unacceptable : ¬ d.Accepts command) :
    ∃ fault, s.obey command = .error fault ∧ (fault = .overflow ∨ ∃ id, fault = .alreadyCached id) := by
  cases command with
  | delete | demote | fork => exact absurd trivial unacceptable
  | insert req now tag =>
    by_cases absent : (d req.id).live = none
    · obtain ⟨ttl, some, far⟩ : ∃ ttl, req.ttl = some ttl ∧ ¬ IsTime (req.time + ttl) := by
        simpa [Accepts, absent] using unacceptable
      have free : s.find? req.id = none := by
        rw [show s.find? req.id = _ from h.slotOf_eq false req.id]
        exact congrArg (Option.map (·.1)) absent
      have late : Record.ofRequest req now tag = .error .overflow := by
        have sum : addTime req.time ttl = .error .overflow := if_neg far
        simp only [Record.ofRequest, some, Option.mapM_some, sum]
        rfl
      refine ⟨.overflow, ?_, .inl rfl⟩
      simp only [obey, Store.insert, isSome_live_entry, caches, free, late]
      rfl
    · refine ⟨.alreadyCached req.id, ?_, .inr ⟨req.id, rfl⟩⟩
      simp only [obey, h.insert_refuses req now tag absent]
      rfl

theorem answers (command : Command μ) : s.Answers d command where
  yields fit := (h.yields_obey fit).mono fun _ ⟨e, step, kept⟩ =>
    ⟨e, step, step.keeps, kept.reflects⟩
  inert unfit := (h.inert unfit).imp fun _ p => p.1
  refuses unacceptable := (h.refuses unacceptable).imp fun _ p => p.1

end Catalogued

def refusals : Tolerance where
  allows fault := fault = .overflow ∨ ∃ id, fault = .alreadyCached id
  overflow := .inl rfl

theorem Catalogued.settles_obey {s : Store μ} {d : Catalogue μ} (h : s.Catalogued d)
    (command : Command μ) : Settles refusals (s.obey command) fun q =>
      ∃ e, d.Step command q.1 e ∧ q.2.Catalogued e := by
  by_cases fit : d.Accepts command
  · exact (h.yields_obey fit).settles
  · obtain ⟨fault, e, allowed⟩ := h.refuses fit
    rw [e]
    exact allowed

theorem Catalogued.settles_obeyAll {s : Store μ} {d : Catalogue μ} (h : s.Catalogued d)
    (commands : List (Command μ)) : Settles refusals (s.obeyAll commands) fun p =>
      ∃ e, Steps d commands p.1 e ∧ p.2.Catalogued e := by
  induction commands generalizing s d with
  | nil => exact settles_pure ⟨d, .nil d, h⟩
  | cons command commands ih =>
    refine settles_bind (h.settles_obey command) ?_
    rintro ⟨reply, s'⟩ ⟨e, first, kept⟩
    refine settles_bind (ih kept) ?_
    rintro ⟨replies, s''⟩ ⟨f, rest, last⟩
    exact settles_pure ⟨f, .cons first rest, last⟩

/--
A run from the empty store stops only at an admission that the catalogue does
not accept. Its replies are those of the catalogue, the store reflects the
catalogue, and so it does after whatever command comes next.
-/
theorem obeyAll_refines (commands : List (Command μ)) :
    Settles refusals ((empty : Store μ).obeyAll commands) fun p =>
      ∃ d, Steps .empty commands p.1 d ∧ p.2.Reflects d ∧ ∀ next, p.2.Answers d next := by
  refine (catalogued_empty.settles_obeyAll commands).mono ?_
  rintro ⟨replies, s⟩ ⟨d, steps, kept⟩
  exact ⟨d, steps, kept.reflects, kept.answers⟩

end Store
end CacheReplay
