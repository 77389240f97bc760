import CacheReplay.Proofs.Arc.Directory
import CacheReplay.Proofs.Lookup
import Mathlib

set_option autoImplicit false

/-!
# The victim of adaptive replacement

One step of replacement takes at most one object out of the cache, the one at the
back of the list that gives up, whatever ghosts it forgets on the way. The object
that is named beforehand is this one, but in one case: with an empty recent side
and a request beyond the capacity a step falls back to the frequent list, and
nothing is named.
-/
namespace CacheReplay

namespace Store
variable {μ : Type}

def cached (s : Store μ) (id : Nat) : Option (Record μ) := (s.findRecord? id).map bare

theorem map_bare_live? (s : Store μ) (i : Slot) :
    (s.live? i).map bare = ((s.get? i).map bare).filter fun r => !r.ghost := by
  unfold live?
  cases s.get? i with
  | none => rfl
  | some r => cases ghost : r.ghost <;> simp [Option.filter, bare, Linked.withLinks, ghost]

theorem Consistent.cached_eq_some_iff {s : Store μ} (h : s.Consistent) (id : Nat) (r : Record μ) :
    s.cached id = some r ↔ ∃ i, (s.live? i).map bare = some r ∧ r.id = id := by
  unfold cached findRecord?
  rw [Option.map_eq_some_iff]
  constructor
  · rintro ⟨u, found, rfl⟩
    obtain ⟨i, hi, hu⟩ := Option.bind_eq_some_iff.mp found
    obtain ⟨v, hv, hid, live⟩ := (h.find?_eq_some_iff id i).mp hi
    cases hu.symm.trans hv
    exact ⟨i, congrArg (Option.map bare) ((s.live?_eq_some_iff i u).mpr ⟨hu, live⟩), hid⟩
  · rintro ⟨i, alive, hid⟩
    obtain ⟨u, hu, rfl⟩ := Option.map_eq_some_iff.mp alive
    obtain ⟨hu, live⟩ := (s.live?_eq_some_iff i u).mp hu
    have hi := (h.find?_eq_some_iff id i).mpr ⟨u, hu, hid, live⟩
    exact ⟨u, Option.bind_eq_some_iff.mpr ⟨i, hi, hu⟩, rfl⟩

end Store

namespace Arc
variable {t : Tolerance}

/-- The object at a handle, if there is one, leaves the cache, and the others stay. -/
structure Outgoes (c : Arc) (out : Option Slot) (d : Arc) : Prop where
  live : ∀ j, (d.store.live? j).map bare = if out = some j then none else (c.store.live? j).map bare
  objects : d.account.objects + (if out.isSome then 1 else 0) = c.account.objects

theorem Outgoes.refl (c : Arc) : c.Outgoes none c := ⟨fun _ => rfl, rfl⟩

/-- The lists of cached objects and what decides between them. -/
structure Settled (c d : Arc) : Prop where
  list : ∀ tier, d.list tier false = c.list tier false
  target : d.target = c.target
  ghostHit : d.ghostHit = c.ghostHit

theorem Settled.replaced_eq {c d : Arc} (h : c.Settled d) : d.replaced = c.replaced := by
  have t1 : d.t1 = c.t1 := h.list .recent
  have t2 : d.t2 = c.t2 := h.list .frequent
  rw [replaced, replaced, t1, t2, h.target, h.ghostHit]

theorem settles_detach_settled (c : Arc) (tier : Tier) (i : Slot) (n : Nat) :
    Settles .any (c.detach tier true i n) c.Settled := by
  apply settles_bind (settles_any _)
  rintro ⟨l, records⟩ _
  refine settles_pure ⟨fun side => ?_, target_withList .., ghostHit_withList ..⟩
  cases tier <;> cases side <;> rfl

theorem settles_drop_settled (c : Arc) {i : Slot} {r : Record Tier} (hr : c.store.get? i = some r)
    (ghost : r.ghost = true) : Settles .any (c.drop i) c.Settled := by
  unfold drop
  rw [hr]
  apply settles_bind (settles_any (c.account.footprint r.size))
  intro bytes _
  rw [ghost]
  apply settles_bind (settles_detach_settled c r.tag i bytes)
  intro d settled
  apply settles_bind (settles_any (d.store.delete i))
  intro gone _
  refine settles_pure ⟨fun side => ?_, settled.target, settled.ghostHit⟩
  rw [← settled.list]
  cases side <;> rfl

/-- The recent side has nothing to forget and no room for so many bytes more. -/
def Exhausted (c : Arc) (size : Nat) : Prop :=
  c.ghostHit = none ∧ c.b1.bytes = 0 ∧
    c.account.capacity < c.t1.bytes + c.b1.bytes + (size + c.account.overhead)

instance (c : Arc) (size : Nat) : Decidable (c.Exhausted size) := inferInstanceAs (Decidable (_ ∧ _ ∧ _))

def candidate (c : Arc) : Option Slot := (c.list c.replaced false).order.back

/-- What one step of replacement takes out of the cache. -/
def outgoing (c : Arc) (size : Nat) : Option Slot :=
  if c.Exhausted size then c.t1.order.back.or c.candidate else c.candidate

namespace Sound
variable {c : Arc} (h : c.Sound)
include h

theorem get?_back {tier : Tier} {side : Bool} {i : Slot} (back : (c.list tier side).order.back = some i) :
    ∃ r, c.store.get? i = some r ∧ r.ghost = side := by
  obtain ⟨seqs, L⟩ := h.lists
  have hi : i ∈ seqs (tier, side) :=
    List.mem_of_getLast? ((L.family.represents (tier, side)).back_eq ▸ back)
  obtain ⟨r, hr, place⟩ := (L.mem_iff _ i).mp hi
  exact ⟨r, hr, congrArg Prod.snd place⟩

theorem settles_drop_outgoes {i : Slot} {r : Record Tier} (hr : c.store.get? i = some r) :
    Settles t (c.drop i) (c.Outgoes (if r.ghost then none else some i)) := by
  apply (h.settles_drop hr).mono
  rintro d ⟨-, account, get⟩
  have live : ∀ j, (d.store.live? j).map bare = if i = j then none else (c.store.live? j).map bare := by
    intro j
    rw [Store.map_bare_live?, get, Store.map_bare_live?]
    split <;> rfl
  cases ghost : r.ghost with
  | true =>
    rw [ghost, if_pos rfl] at account
    refine ⟨fun j => ?_, by rw [account]; rfl⟩
    rw [live]
    split
    · rename_i e
      rw [← e, Store.live?_of_ghost hr ghost]
      rfl
    · rfl
  | false =>
    have covers := h.balanced.covers (Store.liveSize?_of_live hr ghost)
    rw [ghost, if_neg Bool.false_ne_true] at account
    refine ⟨fun j => by simpa using live j, ?_⟩
    rw [account]
    exact Nat.sub_add_cancel covers.2

theorem settles_dropLastGhost_outgoes (tier : Tier) :
    Settles .any (c.dropLastGhost tier) fun d => c.Settled d ∧ c.Outgoes none d := by
  unfold dropLastGhost
  cases back : (c.list tier true).order.back with
  | none => exact settles_pure ⟨⟨fun _ => rfl, rfl, rfl⟩, .refl c⟩
  | some i =>
    obtain ⟨r, hr, ghost⟩ := h.get?_back back
    have dropped := h.settles_drop_outgoes (t := .any) hr
    rw [if_pos ghost] at dropped
    exact (settles_drop_settled c hr ghost).and dropped

theorem settles_demoteLast_outgoes (tier : Tier) :
    Settles t (c.demoteLast tier) (c.Outgoes (c.list tier false).order.back) := by
  obtain ⟨seqs, L⟩ := h.lists
  unfold demoteLast
  cases back : (c.list tier false).order.back with
  | none => exact settles_pure (.refl c)
  | some i =>
    have hi : i ∈ seqs (tier, false) :=
      List.mem_of_getLast? ((L.family.represents (tier, false)).back_eq ▸ back)
    obtain ⟨r, hr, live⟩ := h.get?_back back
    have some := Store.liveSize?_of_live hr live
    simp only [hr, h.findGhost?_of_live hr live]
    apply settles_ok_bind
    apply settles_bind (Account.settles_footprint c.account r.size)
    rintro bytes ⟨rfl, -⟩
    rw [← bind_assoc]
    apply settles_bind ((L.loosen (.some i)).settles_move (k := (tier, false)) (m := (tier, true)) hi hr)
    rintro d ⟨moved, others, L', -⟩
    obtain ⟨u, hu, hbare⟩ := moved.same.get? hr
    obtain ⟨l, rfl⟩ := Record.exists_links_of_bare hbare
    rw [moved.account, L'.consistent.demote_eq hu live]
    apply settles_ok_bind
    apply settles_bind (h.balanced.settles_release some)
    rintro account rfl
    have covers := h.balanced.covers some
    refine settles_pure ⟨fun j => ?_, Nat.sub_add_cancel covers.2⟩
    show ((d.store.demoted i).live? j).map bare = _
    rw [L'.consistent.live?_demoted hu live]
    by_cases e : i = j
    · rw [if_pos e, if_pos (congrArg Option.some e)]
      rfl
    · rw [if_neg e, if_neg fun same => e (Option.some.inj same), Store.map_bare_live?,
        show (d.store.get? j).map bare = (c.store.get? j).map bare from moved.same j,
        ← Store.map_bare_live?]

theorem settles_replace_after (tier : Tier) : Settles .any (do
    let d ← c.dropLastGhost tier
    d.replace) (c.Outgoes c.candidate) := by
  apply settles_bind ((h.settles_dropLastGhost (t := .any) tier).and (h.settles_dropLastGhost_outgoes tier))
  rintro d ⟨⟨sound, -, -⟩, settled, kept⟩
  have same : d.candidate = c.candidate := by
    rw [candidate, candidate, settled.replaced_eq, settled.list]
  apply (sound.settles_demoteLast_outgoes d.replaced).mono
  intro e gone
  change d.Outgoes d.candidate e at gone
  rw [same] at gone
  refine ⟨fun j => ?_, gone.objects.trans kept.objects⟩
  rw [gone.live, kept.live, if_neg (Option.some_ne_none j).symm]

theorem settles_drop_back {i : Slot} (back : c.t1.order.back = some i) :
    Settles t (c.drop i) (c.Outgoes (some i)) := by
  obtain ⟨r, hr, live⟩ := h.get?_back (show (c.list .recent false).order.back = some i from back)
  have dropped := h.settles_drop_outgoes (t := t) hr
  rwa [live, if_neg Bool.false_ne_true] at dropped

theorem settles_step_outgoes (size : Nat) : Settles .any (c.step size) (c.Outgoes (c.outgoing size)) := by
  have replaced : Settles .any c.replace (c.Outgoes c.candidate) := h.settles_demoteLast_outgoes c.replaced
  unfold step
  by_cases hit : c.ghostHit.isSome = true
  · rw [if_pos hit, outgoing, if_neg fun out => by simp [out.1] at hit]
    exact replaced
  have fresh : c.ghostHit = none := Option.not_isSome_iff_eq_none.mp hit
  rw [if_neg hit]
  apply settles_bind (c.settles_recentFull size)
  intro full hfull
  cases full with
  | true =>
    have wanting := of_decide_eq_true hfull.symm
    rw [if_pos rfl]
    by_cases known : 0 < c.b1.bytes
    · rw [if_pos known, outgoing, if_neg fun out => absurd out.2.1 (Nat.ne_of_gt known)]
      exact h.settles_replace_after .recent
    · rw [if_neg known, outgoing, if_pos ⟨fresh, Nat.eq_zero_of_not_pos known, wanting⟩]
      cases back : c.t1.order.back with
      | some i => exact h.settles_drop_back back
      | none => exact replaced
  | false =>
    have spare := of_decide_eq_false hfull.symm
    rw [if_neg Bool.false_ne_true, outgoing, if_neg fun out => spare out.2.2]
    apply settles_bind c.settles_directoryFull
    intro full _
    dsimp only
    split
    · exact h.settles_replace_after .frequent
    · exact replaced

end Sound

theorem settles_victim (c : Arc) (req : Request) : Settles t (c.victim req) fun named =>
    named = if c.Exhausted req.size then c.lastOf .recent else c.lastOf c.replaced := by
  unfold victim
  by_cases hit : c.ghostHit.isSome = true
  · rw [if_pos hit, if_neg fun out => by simp [out.1] at hit]
    exact settles_pure rfl
  have fresh : c.ghostHit = none := Option.not_isSome_iff_eq_none.mp hit
  rw [if_neg hit]
  apply settles_bind (c.settles_recentFull req.size)
  rintro full rfl
  have same : (decide (c.account.capacity < c.t1.bytes + c.b1.bytes + (req.size + c.account.overhead)) &&
      decide (c.b1.bytes = 0)) = true ↔ c.Exhausted req.size := by
    simp [Exhausted, fresh, and_comm]
  by_cases out : c.Exhausted req.size
  · rw [if_pos (same.mpr out), if_pos out]
    exact settles_pure rfl
  · rw [if_neg (mt same.mp out), if_neg out]
    exact settles_pure rfl

/--
The case in which nothing is named: neither cached objects nor ghosts are left on the recent side,
and the request is beyond the capacity, but frequent bytes are cached.
-/
structure Overlooked (c : Arc) (size : Nat) : Prop where
  fresh : c.ghostHit = none
  forgotten : c.b1.bytes = 0
  empty : c.t1.order.back = none
  beyond : c.account.capacity < size + c.account.overhead
  frequent : 0 < c.t2.bytes

/-- An object, if one is named, is not cached any more, and every other one is as before. -/
structure Loses (c : Arc) (named : Option Nat) (d : Arc) : Prop where
  held : ∀ id, named = some id → (c.store.cached id).isSome
  cached : ∀ id, d.store.cached id = if named = some id then none else c.store.cached id

def idOf (c : Arc) (out : Option Slot) : Option Nat := (out.bind c.store.get?).map (·.id)

theorem Outgoes.loses {c d : Arc} {out : Option Slot} (gone : c.Outgoes out d) (h : c.Sound) (k : d.Sound)
    (live : ∀ i, out = some i → ∃ r, c.store.get? i = some r ∧ r.ghost = false) :
    c.Loses (c.idOf out) d := by
  cases out with
  | none =>
    refine ⟨nofun, fun id => Option.ext fun r => ?_⟩
    rw [idOf, Option.bind_none, Option.map_none, if_neg (Option.some_ne_none id).symm,
      h.consistent.cached_eq_some_iff, k.consistent.cached_eq_some_iff]
    simp only [gone.live, if_neg (Option.some_ne_none _).symm]
  | some i =>
    obtain ⟨u, hu, alive⟩ := live i rfl
    have named : c.idOf (some i) = some u.id := by rw [idOf, Option.bind_some, hu]; rfl
    rw [named]
    constructor
    · intro id same
      have found := congrArg (Option.map bare) ((c.store.live?_eq_some_iff i u).mpr ⟨hu, alive⟩)
      rw [(h.consistent.cached_eq_some_iff id (bare u)).mpr ⟨i, found, Option.some.inj same⟩]
      rfl
    · intro id
      apply Option.ext
      intro r
      rw [k.consistent.cached_eq_some_iff]
      have elsewhere : ∀ j, (d.store.live? j).map bare = some r ↔
          i ≠ j ∧ (c.store.live? j).map bare = some r := by
        intro j
        rw [gone.live]
        by_cases e : i = j <;> simp [e]
      by_cases same : u.id = id
      · rw [if_pos (congrArg some same)]
        refine iff_of_false ?_ nofun
        rintro ⟨j, hj, hid⟩
        obtain ⟨apart, hj⟩ := (elsewhere j).mp hj
        obtain ⟨v, hv, rfl⟩ := Option.map_eq_some_iff.mp hj
        obtain ⟨hv, other⟩ := (c.store.live?_eq_some_iff j v).mp hv
        exact apart (h.consistent.live_unique hu hv alive other (same.trans hid.symm))
      · rw [if_neg fun e => same (Option.some.inj e), h.consistent.cached_eq_some_iff]
        refine exists_congr fun j => and_congr_left fun hid => ?_
        rw [elsewhere]
        refine and_iff_right_of_imp fun hj e => same ?_
        subst e
        rw [(c.store.live?_eq_some_iff i u).mpr ⟨hu, alive⟩] at hj
        rw [← hid, ← Option.some.inj hj]
        rfl

namespace Sound
variable {c : Arc} (h : c.Sound)
include h

theorem live_outgoing {size : Nat} {i : Slot} (out : c.outgoing size = some i) :
    ∃ r, c.store.get? i = some r ∧ r.ghost = false := by
  unfold outgoing at out
  split at out
  · rcases Option.or_eq_some_iff.mp out with recent | ⟨-, other⟩
    · exact h.get?_back (show (c.list .recent false).order.back = some i from recent)
    · exact h.get?_back other
  · exact h.get?_back out

theorem bytes_of_empty (empty : c.t1.order.back = none) : c.t1.bytes = 0 := by
  by_contra some
  obtain ⟨i, r, back, -⟩ := h.exists_back (k := (.recent, false)) (Nat.pos_of_ne_zero some)
  rw [show c.t1.order.back = Option.some i from back] at empty
  cases empty

theorem replaced_of_empty (empty : c.t1.order.back = none) :
    c.replaced = if c.t2.bytes = 0 then .recent else .frequent := by
  unfold replaced
  simp [h.bytes_of_empty empty]

/-- What is named is what goes, or the case is overlooked. -/
theorem overlooked_or_named (size : Nat) :
    c.Overlooked size ∧ c.Exhausted size ∧ c.outgoing size = c.t2.order.back ∨
      ¬c.Overlooked size ∧
        (if c.Exhausted size then c.lastOf .recent else c.lastOf c.replaced) = c.idOf (c.outgoing size) := by
  by_cases out : c.Exhausted size
  · rw [if_pos out, outgoing, if_pos out]
    cases back : c.t1.order.back with
    | some i =>
      refine .inr ⟨fun overlooked => Option.some_ne_none i (back.symm.trans overlooked.empty), ?_⟩
      exact congrArg c.idOf back
    | none =>
      have side := h.replaced_of_empty back
      rw [Option.none_or, candidate, side]
      by_cases zero : c.t2.bytes = 0
      · rw [if_pos zero]
        refine .inr ⟨fun overlooked => absurd zero (Nat.ne_of_gt overlooked.frequent), rfl⟩
      · rw [if_neg zero]
        have beyond := out.2.2
        rw [h.bytes_of_empty back, out.2.1, Nat.zero_add] at beyond
        exact .inl ⟨⟨out.1, out.2.1, back, beyond, Nat.pos_of_ne_zero zero⟩, out, rfl⟩
  · rw [if_neg out, outgoing, if_neg out]
    refine .inr ⟨fun overlooked => out ⟨overlooked.fresh, overlooked.forgotten, ?_⟩, rfl⟩
    rw [h.bytes_of_empty overlooked.empty, overlooked.forgotten, Nat.zero_add]
    exact overlooked.beyond

/-- What naming a victim and then evicting one have to do with each other. -/
theorem settles_evict_named (req : Request) :
    Settles t (c.victim req) fun named => Settles t (c.evict req) fun p =>
      (¬c.Overlooked req.size → p.1 = named.isSome ∧ c.Loses named p.2) ∧
      (c.Overlooked req.size → named = none ∧ p.1 = true ∧
        ∃ id, c.lastOf .frequent = some id ∧ c.Loses (some id) p.2) := by
  apply (c.settles_victim req).mono
  rintro named rfl
  apply settles_bind ((h.settles_step req.size).also (h.settles_step_outgoes req.size))
  rintro d ⟨stepped, gone⟩
  apply settles_pure
  have loses := gone.loses h stepped.sound fun i out => h.live_outgoing out
  have fewer : decide (d.account.objects < c.account.objects) = (c.outgoing req.size).isSome := by
    rw [← gone.objects]
    cases c.outgoing req.size <;> simp
  rw [fewer]
  have known : (c.idOf (c.outgoing req.size)).isSome = (c.outgoing req.size).isSome := by
    cases out : c.outgoing req.size with
    | none => rfl
    | some i =>
      obtain ⟨r, hr, -⟩ := h.live_outgoing out
      rw [idOf, Option.bind_some, hr]
      rfl
  rcases h.overlooked_or_named req.size with ⟨overlooked, out, last⟩ | ⟨fine, named⟩
  · refine ⟨fun fine => absurd overlooked fine, fun _ => ?_⟩
    obtain ⟨i, r, back, hr, -⟩ := h.exists_back (k := (.frequent, false)) overlooked.frequent
    have back : c.t2.order.back = some i := back
    have id : c.idOf (some i) = some r.id := by rw [idOf, Option.bind_some, hr]; rfl
    rw [last, back, id] at loses
    rw [if_pos out, last, back]
    refine ⟨?_, rfl, r.id, ?_, loses⟩
    · exact congrArg c.idOf overlooked.empty
    · exact (congrArg c.idOf back).trans id
  · rw [named, known]
    exact ⟨fun _ => ⟨rfl, loses⟩, fun overlooked => absurd overlooked fine⟩

end Sound

open EvictionPolicy

/--
Whatever a run has done before, the object that is named to go is the one that an eviction takes out
of the cache, and where none is named the eviction fails and leaves all cached objects. The
exception is a request beyond the capacity that finds nothing on the recent side: none is named, but
the eviction succeeds and takes out the last object of the frequent side.
-/
theorem run_victim_leaves (capacity overhead : Nat) (ops : List Operation) :
    Settles .arithmetic (run (empty capacity overhead) ops) fun c => ∀ req,
      Settles .arithmetic (c.victim req) fun named => Settles .arithmetic (c.evict req) fun p =>
        (¬c.Overlooked req.size → p.1 = named.isSome ∧ c.Loses named p.2) ∧
        (c.Overlooked req.size → named = none ∧ p.1 = true ∧
          ∃ id, c.lastOf .frequent = some id ∧ c.Loses (some id) p.2) := by
  apply (dependable.settles_run _ ops (sound_empty capacity overhead)).mono
  exact fun c h req => h.settles_evict_named req

/-- A hit makes the only object frequent; a request of eleven bytes to a cache of ten then names nothing. -/
theorem victim_unnamed : ∃ c, run (empty 10 0) [.get (.ofId 1 4 0), .get (.ofId 1 4 1)] = .ok c ∧
    c.victim (.ofId 2 11 2) = .ok none ∧ ∃ d, c.evict (.ofId 2 11 2) = .ok (true, d) ∧
      (c.store.cached 1).isSome ∧ d.store.cached 1 = none := by
  have reached := yields_of_toOption (x := run (empty 10 0) [.get (.ofId 1 4 0), .get (.ofId 1 4 1)])
    (f := fun c => (c.victim (.ofId 2 11 2), c.ghostHit, c.b1.bytes, c.t1.order.back, c.t2.bytes,
      c.lastOf .frequent, c.total, c.account.capacity, c.account.overhead))
    (b := (.ok none, none, 0, none, 4, some 1, 4, 10, 0)) (by cbv)
  obtain ⟨c, e, read, h⟩ := reached.and
    (dependable.settles_run (t := .any) _ _ (sound_empty 10 0))
  simp only [Prod.mk.injEq] at read
  obtain ⟨unnamed, fresh, forgotten, empty, frequent, last, total, capacity, overhead⟩ := read
  have overlooked : c.Overlooked (Request.ofId 2 11 2).size :=
    ⟨fresh, forgotten, empty, by rw [capacity, overhead]; decide, by rw [frequent]; decide⟩
  have named := h.settles_evict_named (t := .any) (.ofId 2 11 2)
  rw [unnamed] at named
  have answers : Yields (c.evict (.ofId 2 11 2)) fun _ => True := by
    apply yields_bind (show Yields (c.step 11) _ from h.yields_step ?_ ?_ ?_) fun _ _ => yields_pure trivial
    · rw [total]
      decide
    · rw [total, overhead]
      decide
    · rw [capacity]
      decide
  obtain ⟨p, evicted, -, -, beyond⟩ := answers.and named
  obtain ⟨-, done, id, frequent, loses⟩ := beyond overlooked
  rw [last] at frequent
  cases frequent
  exact ⟨c, e, unnamed, p.2, by rw [evicted, ← done], loses.held 1 rfl, loses.cached 1⟩

end Arc
end CacheReplay
