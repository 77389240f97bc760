import CacheReplay.Proofs.Chain.Validation
import CacheReplay.Proofs.Store
import Mathlib.Data.Set.Insert

set_option autoImplicit false

namespace CacheReplay

namespace Chain
variable {α : Type} [Linked α]

namespace Represents
variable {c : Chain} {a : Arena α} {s : List Slot} {i : Slot}

theorem popFront_eq (h : c.Represents a s) (first : s.head? = some i) :
    c.popFront a = (fun p => (some i, p)) <$> c.unlink a i := by
  unfold Chain.popFront
  rw [h.front_eq, first]
  exact (map_eq_pure_bind _ _).symm

theorem popBack_eq (h : c.Represents a s) (last : s.getLast? = some i) :
    c.popBack a = (fun p => (some i, p)) <$> c.unlink a i := by
  unfold Chain.popBack
  rw [h.back_eq, last]
  exact (map_eq_pure_bind _ _).symm

variable [LawfulLinked α]

theorem links?_unlink (h : c.Represents a s) (hi : i ∈ s) {d : Chain} {b : Arena α}
    (e : c.unlink a i = .ok (d, b)) : b.links? i = some .detached := by
  obtain ⟨l, r, rfl⟩ := List.append_of_mem hi
  rw [h.unlink_eq] at e
  cases e
  have rest : Arena.Relinked (l ++ i :: r) a ((a.setNext l.getLast? r.head?).setPrev r.head? l.getLast?) := by
    refine .trans (.setNext _ (fun j hj => ?_) _) (.setPrev _ (fun j hj => ?_) _)
    · exact List.mem_append_left _ (List.mem_of_getLast? hj)
    · exact List.mem_append_right _ (List.mem_cons_of_mem i (List.mem_of_head? hj))
  obtain ⟨u, hu⟩ := h.get? hi
  obtain ⟨v, hv, -⟩ := rest.same.get? hu
  rw [Arena.links?_relink, if_pos rfl, Arena.links?, hv]
  rfl

theorem moveToBack (h : c.Represents a s) (hi : i ∈ s) :
    ∃ d b, c.moveToBack a i = .ok (d, b) ∧ d.Represents b (s.erase i ++ [i]) ∧
      Arena.Relinked s a b := by
  unfold Chain.moveToBack
  by_cases last : c.back = some i
  · rw [if_pos last]
    refine ⟨c, a, rfl, ?_, .refl _ _⟩
    obtain ⟨l, rfl⟩ : ∃ l, s = l ++ [i] := by
      rw [h.back_eq, List.getLast?_eq_some_iff] at last
      exact last
    rwa [erase_append_cons h.nodup, List.append_nil]
  · rw [if_neg last]
    obtain ⟨d, b, e, rep, rel⟩ := h.unlink hi
    have present : b.contains i = true := by
      obtain ⟨r, hr⟩ := h.get? hi
      obtain ⟨u, hu, -⟩ := rel.same.get? hr
      simp [Arena.contains, hu]
    refine ⟨_, _, by rw [e]; rfl, rep.pushBack (h.nodup.not_mem_erase) present, rel.trans ?_⟩
    refine (relinked_pushBack rep).widen fun j hj => ?_
    rcases List.mem_cons.mp hj with rfl | hj
    · exact hi
    · exact List.mem_of_mem_erase hj

end Represents

theorem Family.moveToBack [LawfulLinked α] {ι : Type} [DecidableEq ι] {chains : ι → Chain}
    {a : Arena α} {seqs : ι → List Slot} (h : Family chains a seqs) {k : ι} {i : Slot}
    (hi : i ∈ seqs k) :
    ∃ c b, (chains k).moveToBack a i = .ok (c, b) ∧ Arena.Relinked (seqs k) a b ∧
      Family (Function.update chains k c) b (Function.update seqs k ((seqs k).erase i ++ [i])) := by
  obtain ⟨c, b, e, rep, rel⟩ := (h.represents k).moveToBack hi
  refine ⟨c, b, e, rel, h.replace rel rep (fun j hj l hl => h.own hj l hl) fun j hj => ?_⟩
  rcases List.mem_append.mp hj with hj | hj
  · exact List.mem_of_mem_erase hj
  · rwa [List.mem_singleton.mp hj]

end Chain

/-- Chains over one arena. -/
structure Strands (ι α : Type) where
  chains : ι → Chain
  arena : Arena α

namespace Strands

inductive Command (ι α : Type) where
  | pushFront (k : ι) (i : Slot)
  | pushBack (k : ι) (i : Slot)
  | unlink (k : ι) (i : Slot)
  | moveToFront (k : ι) (i : Slot)
  | moveToBack (k : ι) (i : Slot)
  | popFront (k : ι)
  | popBack (k : ι)
  | allocate (v : α)
  | free (i : Slot)

inductive Reply (α : Type) where
  | done
  | handle (i : Option Slot)
  | freed (v : Option α)

/-- The sequences, the records without their links, and the records that were detached. -/
structure Plan (ι α : Type) where
  seqs : ι → List Slot
  cells : Slot → Option α
  removed : Set Slot

variable {ι α : Type} [Linked α]

namespace Plan

def ofArena (a : Arena α) : Plan ι α := ⟨fun _ => [], fun i => (a.get? i).map bare, ∅⟩

/-- Records are attached that are present and in no sequence, and moved or detached where they are. -/
def Allows (p : Plan ι α) : Command ι α → Prop
  | .pushFront _ i | .pushBack _ i => (p.cells i).isSome ∧ ∀ k, i ∉ p.seqs k
  | .unlink k i | .moveToFront k i | .moveToBack k i => i ∈ p.seqs k
  | .popFront _ | .popBack _ | .allocate _ => True
  | .free i => ∀ k, i ∉ p.seqs k

end Plan

def ofArena (a : Arena α) : Strands ι α := ⟨fun _ => .empty, a⟩

/-- Everything that can be asked of the chains has the answer that the sequences give. -/
structure Follows (w : Strands ι α) (p : Plan ι α) : Prop where
  nodup : ∀ k, (p.seqs k).Nodup
  disjoint : ∀ k l i, i ∈ p.seqs k → i ∈ p.seqs l → k = l
  toList_eq : ∀ k, (w.chains k).toList w.arena = p.seqs k
  toListRev_eq : ∀ k, (w.chains k).toListRev w.arena = (p.seqs k).reverse
  length_eq : ∀ k, (w.chains k).length = (p.seqs k).length
  isEmpty_eq : ∀ k, (w.chains k).isEmpty = (p.seqs k).isEmpty
  front_eq : ∀ k, (w.chains k).front = (p.seqs k).head?
  back_eq : ∀ k, (w.chains k).back = (p.seqs k).getLast?
  nextOf_eq : ∀ k l i r, p.seqs k = l ++ i :: r → w.arena.nextOf i = r.head?
  prevOf_eq : ∀ k l i r, p.seqs k = l ++ i :: r → w.arena.prevOf i = l.getLast?
  detached : ∀ i ∈ p.removed, w.arena.links? i = some .detached
  get?_eq : ∀ i, (w.arena.get? i).map bare = p.cells i
  validate_eq : ∀ k, (w.chains k).validate w.arena = true

structure Tracks (w : Strands ι α) (p : Plan ι α) : Prop where
  sound : w.arena.Sound
  family : Chain.Family w.chains w.arena p.seqs
  cells : ∀ i, (w.arena.get? i).map bare = p.cells i
  removed : ∀ i ∈ p.removed, w.arena.links? i = some .detached ∧ ∀ k, i ∉ p.seqs k

theorem tracks_ofArena {a : Arena α} (sound : a.Sound) : (ofArena a : Strands ι α).Tracks (.ofArena a) where
  sound := sound
  family := ⟨fun _ => Chain.represents_empty a, fun _ _ _ hi => absurd hi List.not_mem_nil⟩
  cells _ := rfl
  removed _ hi := hi.elim

namespace Tracks
variable {w : Strands ι α} {p : Plan ι α} (h : w.Tracks p)
include h

theorem follows : w.Follows p where
  nodup k := (h.family.represents k).nodup
  disjoint := h.family.disjoint
  toList_eq k := (h.family.represents k).toList_eq
  toListRev_eq k := (h.family.represents k).toListRev_eq
  length_eq k := (h.family.represents k).length_eq
  isEmpty_eq k := by
    rw [Chain.isEmpty, (h.family.represents k).length_eq]
    cases p.seqs k <;> rfl
  front_eq k := (h.family.represents k).front_eq
  back_eq k := (h.family.represents k).back_eq
  nextOf_eq k _ _ _ e := (h.family.represents k).nextOf e
  prevOf_eq k _ _ _ e := (h.family.represents k).prevOf e
  detached i hi := (h.removed i hi).1
  get?_eq := h.cells
  validate_eq k := (h.family.represents k).validate_eq_true

theorem contains {i : Slot} (present : (p.cells i).isSome) : w.arena.contains i = true := by
  rwa [← h.cells i, Option.isSome_map] at present

theorem ends_eq_none {k : ι} (empty : p.seqs k = []) :
    (w.chains k).front = none ∧ (w.chains k).back = none := by
  have rep := h.family.represents k
  rw [empty] at rep
  exact ⟨rep.front_eq, rep.back_eq⟩

theorem allocate (v : α) : p.cells (w.arena.insert v).1 = none ∧
    (⟨w.chains, (w.arena.insert v).2⟩ : Strands ι α).Tracks
      { p with cells := Function.update p.cells (w.arena.insert v).1 (some (bare v)) } := by
  have vacant := Arena.get?_insert_fst h.sound v
  have get := Arena.get?_insert h.sound v
  have kept : ∀ {j u}, w.arena.get? j = some u → (w.arena.insert v).2.get? j = some u := by
    intro j u hu
    rw [get, if_neg, hu]
    rintro rfl
    cases vacant.symm.trans hu
  have links : ∀ {j}, (w.arena.links? j).isSome → (w.arena.insert v).2.links? j = w.arena.links? j := by
    intro j hj
    obtain ⟨u, hu⟩ := Option.isSome_iff_exists.mp ((Option.isSome_map).symm.trans hj)
    rw [Arena.links?, Arena.links?, kept hu, hu]
  refine ⟨by rw [← h.cells, vacant]; rfl, h.sound.insert v, ?_, fun j => ?_, fun j hj => ?_⟩
  · exact h.family.congr fun k j hj => links ((h.family.represents k).links? hj)
  · dsimp only
    rw [get, Function.update_apply]
    split
    · rfl
    · exact h.cells j
  · obtain ⟨detached, out⟩ := h.removed j hj
    refine ⟨(links ?_).trans detached, out⟩
    rw [detached]
    rfl

theorem free {i : Slot} (loose : ∀ k, i ∉ p.seqs k) : (w.arena.remove i).1.map bare = p.cells i ∧
    (⟨w.chains, (w.arena.remove i).2⟩ : Strands ι α).Tracks
      { p with cells := Function.update p.cells i none, removed := p.removed \ {i} } := by
  have get := w.arena.get?_remove i
  have links : ∀ {j}, j ≠ i → (w.arena.remove i).2.links? j = w.arena.links? j := by
    intro j hj
    rw [Arena.links?, Arena.links?, get, if_neg (Ne.symm hj)]
  refine ⟨by rw [w.arena.remove_fst, h.cells], h.sound.remove i, ?_, fun j => ?_, fun j hj => ?_⟩
  · refine h.family.congr fun k j hj => links ?_
    rintro rfl
    exact loose k hj
  · dsimp only
    rw [get, Function.update_apply]
    by_cases e : i = j
    · rw [if_pos e, if_pos e.symm]
      rfl
    · rw [if_neg e, if_neg (Ne.symm e)]
      exact h.cells j
  · obtain ⟨detached, out⟩ := h.removed j hj.1
    exact ⟨(links hj.2).trans detached, out⟩

end Tracks

variable [DecidableEq ι]

namespace Plan

def put (p : Plan ι α) (k : ι) (s : List Slot) (removed : Set Slot) : Plan ι α :=
  ⟨Function.update p.seqs k s, p.cells, removed⟩

/-- What each command replies and does. A value is allocated in any vacant cell. -/
inductive Step (p : Plan ι α) : Command ι α → Reply α → Plan ι α → Prop where
  | pushFront (k : ι) (i : Slot) :
      Step p (.pushFront k i) .done (p.put k (i :: p.seqs k) (p.removed \ {i}))
  | pushBack (k : ι) (i : Slot) :
      Step p (.pushBack k i) .done (p.put k (p.seqs k ++ [i]) (p.removed \ {i}))
  | unlink (k : ι) (i : Slot) :
      Step p (.unlink k i) .done (p.put k ((p.seqs k).erase i) (insert i p.removed))
  | moveToFront (k : ι) (i : Slot) :
      Step p (.moveToFront k i) .done (p.put k (i :: (p.seqs k).erase i) p.removed)
  | moveToBack (k : ι) (i : Slot) :
      Step p (.moveToBack k i) .done (p.put k ((p.seqs k).erase i ++ [i]) p.removed)
  | popFront {k : ι} {i : Slot} {s : List Slot} (first : p.seqs k = i :: s) :
      Step p (.popFront k) (.handle (some i)) (p.put k s (insert i p.removed))
  | popFront_nil {k : ι} (empty : p.seqs k = []) : Step p (.popFront k) (.handle none) p
  | popBack {k : ι} {i : Slot} {s : List Slot} (last : p.seqs k = s ++ [i]) :
      Step p (.popBack k) (.handle (some i)) (p.put k s (insert i p.removed))
  | popBack_nil {k : ι} (empty : p.seqs k = []) : Step p (.popBack k) (.handle none) p
  | allocate {i : Slot} (v : α) (vacant : p.cells i = none) :
      Step p (.allocate v) (.handle (some i))
        { p with cells := Function.update p.cells i (some (bare v)) }
  | free {i : Slot} {v : Option α} (held : v.map bare = p.cells i) :
      Step p (.free i) (.freed v)
        { p with cells := Function.update p.cells i none, removed := p.removed \ {i} }

inductive Steps : Plan ι α → List (Command ι α) → List (Reply α) → Plan ι α → Prop where
  | nil (p : Plan ι α) : Steps p [] [] p
  | cons {p q r : Plan ι α} {command : Command ι α} {reply : Reply α}
      {commands : List (Command ι α)} {replies : List (Reply α)} (first : p.Step command reply q)
      (rest : Steps q commands replies r) : Steps p (command :: commands) (reply :: replies) r

end Plan

def set (w : Strands ι α) (k : ι) (p : Chain × Arena α) : Strands ι α :=
  ⟨Function.update w.chains k p.1, p.2⟩

def obey (w : Strands ι α) : Command ι α → Checked (Reply α × Strands ι α)
  | .pushFront k i => pure (.done, w.set k ((w.chains k).pushFront w.arena i))
  | .pushBack k i => pure (.done, w.set k ((w.chains k).pushBack w.arena i))
  | .unlink k i => do
    let p ← (w.chains k).unlink w.arena i
    pure (.done, w.set k p)
  | .moveToFront k i => do
    let p ← (w.chains k).moveToFront w.arena i
    pure (.done, w.set k p)
  | .moveToBack k i => do
    let p ← (w.chains k).moveToBack w.arena i
    pure (.done, w.set k p)
  | .popFront k => do
    let (i, p) ← (w.chains k).popFront w.arena
    pure (.handle i, w.set k p)
  | .popBack k => do
    let (i, p) ← (w.chains k).popBack w.arena
    pure (.handle i, w.set k p)
  | .allocate v => pure (.handle (some (w.arena.insert v).1), ⟨w.chains, (w.arena.insert v).2⟩)
  | .free i => pure (.freed (w.arena.remove i).1, ⟨w.chains, (w.arena.remove i).2⟩)

def obeyAll (w : Strands ι α) : List (Command ι α) → Checked (List (Reply α) × Strands ι α)
  | [] => pure ([], w)
  | command :: commands => do
    let (reply, w) ← w.obey command
    let (replies, w) ← w.obeyAll commands
    pure (reply :: replies, w)

/-- Each command is allowed by the plan that the ones before it have left. -/
def Lawful : Strands ι α → Plan ι α → List (Command ι α) → Prop
  | _, _, [] => True
  | w, p, command :: commands => p.Allows command ∧ ∀ reply w' p',
      w.obey command = .ok (reply, w') → p.Step command reply p' → Lawful w' p' commands

omit [Linked α] in
theorem set_self (w : Strands ι α) (k : ι) : w.set k (w.chains k, w.arena) = w := by
  rw [set, Function.update_eq_self]

namespace Tracks
variable {w : Strands ι α} {p : Plan ι α} (h : w.Tracks p)
include h

theorem put {k : ι} {i : Slot} {c : Chain} {b : Arena α} {touched s : List Slot} {removed : Set Slot}
    (rel : Arena.Relinked touched w.arena b)
    (family : Chain.Family (Function.update w.chains k c) b (Function.update p.seqs k s))
    (own : ∀ j ∈ touched, j = i ∨ j ∈ p.seqs k) (sub : ∀ j ∈ s, j = i ∨ j ∈ p.seqs k)
    (other : ∀ j ∈ removed, j ≠ i → j ∈ p.removed)
    (this : i ∈ removed → b.links? i = some .detached ∧ i ∉ s ∧ ∀ l, l ≠ k → i ∉ p.seqs l) :
    (w.set k (c, b)).Tracks (p.put k s removed) where
  sound := rel.sound h.sound
  family := family
  cells j := (rel.same j).trans (h.cells j)
  removed j hj := by
    have member : ∀ l, j ∈ (p.put k s removed).seqs l → l = k ∧ j ∈ s ∨ l ≠ k ∧ j ∈ p.seqs l := by
      intro l hl
      by_cases e : l = k
      · subst e
        exact .inl ⟨rfl, by simpa [Plan.put] using hl⟩
      · exact .inr ⟨e, by simpa [Plan.put, e] using hl⟩
    by_cases e : j = i
    · subst e
      obtain ⟨detached, out, elsewhere⟩ := this hj
      refine ⟨detached, fun l hl => ?_⟩
      rcases member l hl with ⟨-, hs⟩ | ⟨hne, hs⟩
      · exact out hs
      · exact elsewhere l hne hs
    · obtain ⟨detached, out⟩ := h.removed j (other j hj e)
      constructor
      · refine (rel.links_eq j fun ht => ?_).trans detached
        exact (own j ht).elim e (out k)
      · intro l hl
        rcases member l hl with ⟨-, hs⟩ | ⟨-, hs⟩
        · exact (sub j hs).elim e (out k)
        · exact out l hs

variable [LawfulLinked α] {k : ι} {i : Slot}

omit [DecidableEq ι] [LawfulLinked α] h in
theorem mem_cons_or {s : List Slot} : ∀ j ∈ i :: s, j = i ∨ j ∈ s := fun _ hj => List.mem_cons.mp hj

theorem pushFront (present : (p.cells i).isSome) (loose : ∀ k, i ∉ p.seqs k) :
    (w.set k ((w.chains k).pushFront w.arena i)).Tracks
      (p.put k (i :: p.seqs k) (p.removed \ {i})) :=
  h.put (Chain.relinked_pushFront (h.family.represents k))
    (h.family.pushFront loose (h.contains present)) mem_cons_or mem_cons_or
    (fun _ hj _ => hj.1) fun hi => absurd rfl hi.2

theorem pushBack (present : (p.cells i).isSome) (loose : ∀ k, i ∉ p.seqs k) :
    (w.set k ((w.chains k).pushBack w.arena i)).Tracks
      (p.put k (p.seqs k ++ [i]) (p.removed \ {i})) := by
  refine h.put (Chain.relinked_pushBack (h.family.represents k))
    (h.family.pushBack loose (h.contains present)) mem_cons_or (fun j hj => ?_)
    (fun _ hj _ => hj.1) fun hi => absurd rfl hi.2
  rcases List.mem_append.mp hj with hj | hj
  · exact .inr hj
  · exact .inl (List.mem_singleton.mp hj)

theorem unlink (hi : i ∈ p.seqs k) : Yields ((w.chains k).unlink w.arena i) fun q =>
    (w.set k q).Tracks (p.put k ((p.seqs k).erase i) (insert i p.removed)) := by
  obtain ⟨c, b, e, rel, family⟩ := h.family.unlink hi
  refine ⟨(c, b), e, h.put (i := i) rel family (fun j hj => .inr hj) (fun j hj => ?_) (fun j hj ne => ?_) ?_⟩
  · exact .inr (List.mem_of_mem_erase hj)
  · exact hj.resolve_left ne
  · intro _
    exact ⟨(h.family.represents k).links?_unlink hi e, (h.family.represents k).nodup.not_mem_erase,
      h.family.own hi⟩

theorem moveToFront (hi : i ∈ p.seqs k) : Yields ((w.chains k).moveToFront w.arena i) fun q =>
    (w.set k q).Tracks (p.put k (i :: (p.seqs k).erase i) p.removed) := by
  obtain ⟨c, b, e, rel, family⟩ := h.family.moveToFront hi
  refine ⟨(c, b), e, h.put (i := i) rel family (fun j hj => .inr hj) (fun j hj => ?_) (fun j hj _ => hj) ?_⟩
  · exact (List.mem_cons.mp hj).imp id List.mem_of_mem_erase
  · intro gone
    exact absurd hi ((h.removed i gone).2 k)

theorem moveToBack (hi : i ∈ p.seqs k) : Yields ((w.chains k).moveToBack w.arena i) fun q =>
    (w.set k q).Tracks (p.put k ((p.seqs k).erase i ++ [i]) p.removed) := by
  obtain ⟨c, b, e, rel, family⟩ := h.family.moveToBack hi
  refine ⟨(c, b), e, h.put (i := i) rel family (fun j hj => .inr hj) (fun j hj => ?_) (fun j hj _ => hj) ?_⟩
  · rcases List.mem_append.mp hj with hj | hj
    · exact .inr (List.mem_of_mem_erase hj)
    · exact .inl (List.mem_singleton.mp hj)
  · intro gone
    exact absurd hi ((h.removed i gone).2 k)

/-- An allowed command does what it does to the sequences. -/
theorem yields_obey {command : Command ι α} (allowed : p.Allows command) :
    Yields (w.obey command) fun q => ∃ p', p.Step command q.1 p' ∧ q.2.Tracks p' := by
  cases command with
  | pushFront k i => exact yields_pure ⟨_, .pushFront k i, h.pushFront allowed.1 allowed.2⟩
  | pushBack k i => exact yields_pure ⟨_, .pushBack k i, h.pushBack allowed.1 allowed.2⟩
  | unlink k i =>
    exact yields_bind (h.unlink allowed) fun _ kept => yields_pure ⟨_, .unlink k i, kept⟩
  | moveToFront k i =>
    exact yields_bind (h.moveToFront allowed) fun _ kept => yields_pure ⟨_, .moveToFront k i, kept⟩
  | moveToBack k i =>
    exact yields_bind (h.moveToBack allowed) fun _ kept => yields_pure ⟨_, .moveToBack k i, kept⟩
  | popFront k =>
    have rep := h.family.represents k
    cases e : p.seqs k with
    | nil =>
      have none : (w.chains k).popFront w.arena = .ok (none, w.chains k, w.arena) := by
        rw [Chain.popFront, (h.ends_eq_none e).1]
        rfl
      refine yields_bind ⟨_, none, rfl⟩ ?_
      rintro q rfl
      refine yields_pure ⟨p, .popFront_nil e, ?_⟩
      rwa [set_self]
    | cons i s =>
      have pop := rep.popFront_eq (i := i) (by rw [e]; rfl)
      have detach := h.unlink (k := k) (i := i) (by rw [e]; exact List.mem_cons_self)
      rw [e, List.erase_cons_head] at detach
      rw [obey, pop, bind_map_left]
      exact yields_bind detach fun _ kept => yields_pure ⟨_, .popFront e, kept⟩
  | popBack k =>
    have rep := h.family.represents k
    rcases List.eq_nil_or_concat (p.seqs k) with e | ⟨s, i, e⟩
    · have none : (w.chains k).popBack w.arena = .ok (none, w.chains k, w.arena) := by
        rw [Chain.popBack, (h.ends_eq_none e).2]
        rfl
      refine yields_bind ⟨_, none, rfl⟩ ?_
      rintro q rfl
      refine yields_pure ⟨p, .popBack_nil e, ?_⟩
      rwa [set_self]
    · rw [List.concat_eq_append] at e
      have nodup := rep.nodup
      rw [e] at nodup
      have pop := rep.popBack_eq (i := i) (by rw [e]; simp)
      have detach := h.unlink (k := k) (i := i) (by rw [e]; simp)
      rw [e, Chain.erase_append_cons nodup, List.append_nil] at detach
      rw [obey, pop, bind_map_left]
      exact yields_bind detach fun _ kept => yields_pure ⟨_, .popBack e, kept⟩
  | allocate v =>
    obtain ⟨vacant, kept⟩ := h.allocate v
    exact yields_pure ⟨_, .allocate v vacant, kept⟩
  | free i =>
    obtain ⟨held, kept⟩ := h.free allowed
    exact yields_pure ⟨_, .free held, kept⟩

theorem yields_obeyAll {commands : List (Command ι α)} (lawful : Lawful w p commands) :
    Yields (w.obeyAll commands) fun q => ∃ p', p.Steps commands q.1 p' ∧ q.2.Tracks p' := by
  induction commands generalizing w p with
  | nil => exact yields_pure ⟨p, .nil p, h⟩
  | cons command commands ih =>
    obtain ⟨⟨reply, w'⟩, obeyed, p', first, kept⟩ := h.yields_obey lawful.1
    refine yields_bind ⟨_, obeyed, rfl⟩ ?_
    rintro _ rfl
    refine yields_bind (ih kept (lawful.2 reply w' p' obeyed first)) ?_
    rintro ⟨replies, w''⟩ ⟨p'', rest, last⟩
    exact yields_pure ⟨p'', .cons first rest, last⟩

end Tracks

theorem Lawful.of_prefix {w : Strands ι α} {p : Plan ι α} {done commands : List (Command ι α)}
    (h : Lawful w p commands) (early : done <+: commands) : Lawful w p done := by
  induction done generalizing w p commands with
  | nil => trivial
  | cons command done ih =>
    obtain ⟨left, rfl⟩ := early
    exact ⟨h.1, fun reply w' p' obeyed step => ih (h.2 reply w' p' obeyed step) (List.prefix_append _ _)⟩

/--
A lawful run over any arena goes through. However far it has come, its replies
are those of the sequences, and the chains follow the sequences.
-/
theorem obeyAll_follows [LawfulLinked α] {a : Arena α} (sound : a.Sound)
    {commands : List (Command ι α)} (lawful : Lawful (ofArena a) (.ofArena a) commands)
    {done : List (Command ι α)} (early : done <+: commands) :
    Yields ((ofArena a : Strands ι α).obeyAll done) fun q =>
      ∃ p, Plan.Steps (.ofArena a) done q.1 p ∧ q.2.Follows p := by
  refine ((tracks_ofArena sound).yields_obeyAll (lawful.of_prefix early)).mono ?_
  rintro ⟨replies, w⟩ ⟨p, steps, kept⟩
  exact ⟨p, steps, kept.follows⟩

def sample (id : Nat) : Record Nat := ⟨id, 1, 0, 0, 0, none, none, .detached, false, 0⟩

def pair : Arena (Record Nat) := ((Arena.empty.insert (sample 0)).2.insert (sample 1)).2

/-- A freed cell is handed out again, attached, and met by two chains. -/
def drill : List (Command Bool (Record Nat)) :=
  [.free 1, .allocate (sample 2), .pushBack true 1, .pushFront false 0, .popBack true, .unlink false 0]

theorem lawful_drill : Lawful (ofArena pair) (.ofArena pair) drill := by
  refine ⟨fun _ hi => absurd hi List.not_mem_nil, fun _ _ _ freed step => ?_⟩
  cases step
  cases freed
  refine ⟨trivial, fun _ _ _ allocated step => ?_⟩
  cases step
  cases allocated
  refine ⟨⟨rfl, fun _ hi => absurd hi List.not_mem_nil⟩, fun _ _ _ _ step => ?_⟩
  cases step
  refine ⟨⟨rfl, fun k hi => ?_⟩, fun _ _ _ _ step => ?_⟩
  · cases k <;> simp [Plan.put, Plan.ofArena] at hi
  cases step
  refine ⟨trivial, fun _ _ _ _ step => ?_⟩
  cases step with
  | popBack last => exact ⟨by simp [Plan.Allows, Plan.put], fun _ _ _ _ _ => trivial⟩
  | popBack_nil none => exact ⟨by simp [Plan.Allows, Plan.put], fun _ _ _ _ _ => trivial⟩

theorem obeyAll_follows_reused : pair.Sound ∧ Lawful (ofArena pair) (.ofArena pair) drill ∧
    Yields ((ofArena pair : Strands Bool (Record Nat)).obeyAll drill) fun q =>
      ∃ p, Plan.Steps (.ofArena pair) drill q.1 p ∧ q.2.Follows p := by
  have sound : pair.Sound := (Arena.sound_empty.insert _).insert _
  exact ⟨sound, lawful_drill, obeyAll_follows sound lawful_drill List.prefix_rfl⟩

end Strands
end CacheReplay
