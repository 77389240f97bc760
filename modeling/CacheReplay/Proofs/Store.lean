import CacheReplay.Proofs.Chain
import CacheReplay.Store

set_option autoImplicit false

namespace CacheReplay

variable {μ : Type}

instance : LawfulLinked (Record μ) where
  links_withLinks _ _ := rfl
  withLinks_withLinks _ _ _ := rfl
  withLinks_links _ := rfl

namespace Record

theorem exists_links_of_bare {u r : Record μ} (h : bare u = bare r) : ∃ l, u = { r with links := l } := by
  obtain ⟨id, size, createTime, lastAccessTime, lastAccess, nextAccess, expiry, links, ghost, tag⟩ := u
  simp only [bare, Linked.withLinks, Record.mk.injEq] at h
  exact ⟨links, by simp [h]⟩

theorem tag_eq_of_bare {u r : Record μ} (h : bare u = bare r) : u.tag = r.tag := by
  obtain ⟨l, rfl⟩ := exists_links_of_bare h
  rfl

def unit (kind : Bool) (r : Record μ) : Nat := if r.ghost = kind then 1 else 0

def liveBytes (overhead : Nat) (r : Record μ) : Nat := if r.ghost then 0 else r.size + overhead

end Record

namespace IndexEntry

def of (e : IndexEntry) (ghost : Bool) : Option Slot := if ghost then e.ghost else e.live

def put (e : IndexEntry) (ghost : Bool) (i : Option Slot) : IndexEntry :=
  if ghost then { e with ghost := i } else { e with live := i }

theorem of_vacant (kind : Bool) : vacant.of kind = none := by
  cases kind <;> rfl

theorem of_put (e : IndexEntry) (k l : Bool) (i : Option Slot) :
    (e.put k i).of l = if k = l then i else e.of l := by
  cases k <;> cases l <;> rfl

theorem isEmpty_iff (e : IndexEntry) : e.isEmpty = true ↔ ∀ kind, e.of kind = none := by
  simp [isEmpty, of]

theorem isEmpty_of_eq_some {e : IndexEntry} {kind : Bool} {i : Slot} (h : e.of kind = some i) :
    e.isEmpty = false := by
  rw [Bool.eq_false_iff, Ne, isEmpty_iff]
  intro none
  rw [none kind] at h
  cases h

end IndexEntry

namespace Store

def slotOf (s : Store μ) (ghost : Bool) (id : Nat) : Option Slot := s.index[id]?.bind fun e => e.of ghost

theorem exists_of_same_bare {a b : Arena (Record μ)} (same : a.Same bare b) {j : Slot} {v : Record μ}
    (hv : b.get? j = some v) : ∃ u, a.get? j = some u ∧ u.id = v.id ∧ u.ghost = v.ghost := by
  obtain ⟨u, hu, hbare⟩ := same.symm.get? hv
  obtain ⟨l, rfl⟩ := Record.exists_links_of_bare hbare
  exact ⟨_, hu, rfl, rfl⟩

theorem exists_of_dropped {s s' : Store μ} {i : Slot}
    (get : ∀ j, (s'.get? j).map bare = if i = j then none else (s.get? j).map bare) {j : Slot}
    {v : Record μ} (hv : s'.get? j = some v) :
    i ≠ j ∧ ∃ u, s.get? j = some u ∧ u.id = v.id ∧ u.ghost = v.ghost := by
  have e := get j
  rw [hv] at e
  split at e
  · cases e
  · rename_i other
    obtain ⟨w, hw, hbare⟩ := Option.map_eq_some_iff.mp e.symm
    obtain ⟨l, rfl⟩ := Record.exists_links_of_bare hbare
    exact ⟨other, _, hw, rfl, rfl⟩

theorem slotOf_insert (s : Store μ) (records : Arena (Record μ)) (n : Nat) (id : Nat) (e : IndexEntry)
    (kind : Bool) (id' : Nat) : (Store.mk records (s.index.insert id e) n).slotOf kind id' =
      if id = id' then e.of kind else s.slotOf kind id' := by
  simp only [slotOf, Std.HashMap.getElem?_insert, beq_iff_eq]
  split <;> rfl

theorem slotOf_erase (s : Store μ) (records : Arena (Record μ)) (n : Nat) (id : Nat) (kind : Bool)
    (id' : Nat) : (Store.mk records (s.index.erase id) n).slotOf kind id' =
      if id = id' then none else s.slotOf kind id' := by
  simp only [slotOf, Std.HashMap.getElem?_erase, beq_iff_eq]
  split <;> rfl

theorem of_entry (s : Store μ) (id : Nat) (kind : Bool) : (s.entry id).of kind = s.slotOf kind id := by
  rw [entry, slotOf, Std.HashMap.getD_eq_getD_getElem?]
  cases s.index[id]? with
  | none => exact IndexEntry.of_vacant kind
  | some e => rfl

/-- The slots lead from each object to its live record and to its ghost, and nowhere else. -/
def Indexes (get : Slot → Option (Record μ)) (slotOf : Bool → Nat → Option Slot) : Prop :=
  ∀ kind id i, slotOf kind id = some i ↔ ∃ r, get i = some r ∧ r.id = id ∧ r.ghost = kind

namespace Indexes
variable {get get' : Slot → Option (Record μ)} {slotOf slotOf' : Bool → Nat → Option Slot}
  (h : Indexes get slotOf)
include h

theorem of_same (same : ∀ i, (get' i).map (fun r => (r.id, r.ghost)) =
    (get i).map fun r => (r.id, r.ghost)) : Indexes get' slotOf := by
  intro kind id i
  have pairs : ∀ o : Option (Record μ), (∃ r, o = some r ∧ r.id = id ∧ r.ghost = kind) ↔
      o.map (fun r => (r.id, r.ghost)) = some (id, kind) := fun o => by
    simp [Option.map_eq_some_iff]
  rw [h, pairs, pairs, same]

variable {i : Slot} {r : Record μ}

theorem lose (hr : get i = some r) (off : ∀ j, get' j = if i = j then none else get j)
    (out : ∀ kind id, slotOf' kind id = if r.id = id ∧ r.ghost = kind then none else slotOf kind id) :
    Indexes get' slotOf' := by
  intro kind id j
  rw [off, out]
  by_cases e : r.id = id ∧ r.ghost = kind
  · rw [if_pos e]
    simp only [reduceCtorEq, false_iff]
    rintro ⟨u, hu, hid, hk⟩
    split at hu
    · cases hu
    · rename_i other
      have there := (h kind id j).mpr ⟨u, hu, hid, hk⟩
      have here := (h kind id i).mpr ⟨r, hr, e⟩
      rw [there] at here
      exact other (Option.some.inj here).symm
  · rw [if_neg e, h]
    split
    · rename_i same
      subst same
      simp only [reduceCtorEq, false_and, exists_false, iff_false]
      rintro ⟨u, hu, filed⟩
      cases hr.symm.trans hu
      exact e filed
    · exact Iff.rfl

theorem gain (free : get i = none) (fresh : slotOf r.ghost r.id = none)
    (off : ∀ j, get' j = if i = j then some r else get j)
    (out : ∀ kind id, slotOf' kind id = if r.id = id ∧ r.ghost = kind then some i else slotOf kind id) :
    Indexes get' slotOf' := by
  intro kind id j
  rw [off, out]
  by_cases e : r.id = id ∧ r.ghost = kind
  · rw [if_pos e, Option.some.injEq]
    split
    · rename_i same
      exact iff_of_true same ⟨r, rfl, e⟩
    · rename_i other
      refine iff_of_false other ?_
      rintro ⟨u, hu, hid, hk⟩
      have there := (h kind id j).mpr ⟨u, hu, hid, hk⟩
      rw [← e.1, ← e.2, fresh] at there
      cases there
  · rw [if_neg e, h]
    split
    · rename_i same
      subst same
      simp only [free, reduceCtorEq, false_and, exists_false, Option.some.injEq, false_iff]
      rintro ⟨u, rfl, filed⟩
      exact e filed
    · exact Iff.rfl

theorem displace (id : Nat) (off : ∀ j, get' j = if slotOf true id = some j then none else get j)
    (out : ∀ kind id', slotOf' kind id' = if id = id' ∧ true = kind then none else slotOf kind id') :
    Indexes get' slotOf' := by
  cases e : slotOf true id with
  | none =>
    have slots : slotOf' = slotOf := by
      funext kind id'
      rw [out]
      split
      · rename_i same
        rw [← same.1, ← same.2, e]
      · rfl
    have cells : get' = get := by
      funext j
      rw [off, e, if_neg (Option.some_ne_none j).symm]
    rwa [slots, cells]
  | some k =>
    obtain ⟨g, hg, hid, ghost⟩ := (h true id k).mp e
    refine h.lose hg (fun j => ?_) fun kind id' => ?_
    · simp only [off, e, Option.some.injEq]
    · rw [out, hid, ghost]

end Indexes

def caches (s : Store μ) (id : Nat) : Bool := (s.find? id).isSome

structure Consistent (s : Store μ) : Prop where
  sound : s.records.Sound
  indexes : Indexes s.get? s.slotOf
  filled : ∀ (id : Nat) (e : IndexEntry), s.index[id]? = some e → e.isEmpty = false
  counted : s.liveCount = s.records.total (Record.unit false)

theorem consistent_empty : (empty : Store μ).Consistent where
  sound := Arena.sound_empty
  indexes kind id i := by simp [empty, slotOf, get?, Arena.get?_empty]
  filled id e he := by simp [empty] at he
  counted := by simp [empty, Arena.total, Arena.empty]

namespace Consistent
variable {s : Store μ} (h : s.Consistent)
include h

theorem find?_eq_some_iff (id : Nat) (i : Slot) :
    s.find? id = some i ↔ ∃ r, s.get? i = some r ∧ r.id = id ∧ r.ghost = false :=
  h.indexes false id i

theorem findGhost?_eq_some_iff (id : Nat) (i : Slot) :
    s.findGhost? id = some i ↔ ∃ r, s.get? i = some r ∧ r.id = id ∧ r.ghost = true :=
  h.indexes true id i

theorem live_unique {i j : Slot} {r u : Record μ} (hr : s.get? i = some r) (hu : s.get? j = some u)
    (live : r.ghost = false) (alive : u.ghost = false) (id : r.id = u.id) : i = j := by
  have hi := (h.find?_eq_some_iff r.id i).mpr ⟨r, hr, rfl, live⟩
  have hj := (h.find?_eq_some_iff r.id j).mpr ⟨u, hu, id.symm, alive⟩
  rw [hi] at hj
  exact Option.some.inj hj

theorem find?_eq_none_iff (id : Nat) :
    s.find? id = none ↔ ∀ i r, s.get? i = some r → r.ghost = false → r.id ≠ id := by
  rw [Option.eq_none_iff_forall_ne_some]
  constructor
  · intro hn i r hr live hid
    exact hn i ((h.find?_eq_some_iff id i).mpr ⟨r, hr, hid, live⟩)
  · intro hn i hi
    obtain ⟨r, hr, hid, live⟩ := (h.find?_eq_some_iff id i).mp hi
    exact hn i r hr live hid

theorem caches_iff (id : Nat) :
    s.caches id = true ↔ ∃ i r, s.get? i = some r ∧ r.id = id ∧ r.ghost = false := by
  rw [caches, Option.isSome_iff_exists]
  exact exists_congr fun i => h.find?_eq_some_iff id i

end Consistent

theorem Consistent.same {s : Store μ} (h : s.Consistent) {records : Arena (Record μ)}
    (sound : records.Sound) (same : s.records.Same (fun r => (r.id, r.ghost)) records) :
    Consistent { s with records } where
  sound := sound
  indexes := h.indexes.of_same same
  filled := h.filled
  counted := h.counted.trans (same.total (fun e => if e.2 = false then 1 else 0) fun _ => rfl).symm

theorem Consistent.relinked {s : Store μ} (h : s.Consistent) {touched : List Slot}
    {records : Arena (Record μ)} (rel : Arena.Relinked touched s.records records) :
    Consistent { s with records } :=
  h.same (rel.sound h.sound) (rel.same.of_comp (fun r => (r.id, r.ghost)) fun _ => rfl)

theorem Consistent.modify {s : Store μ} (h : s.Consistent) (i : Slot) {f : Record μ → Record μ}
    (hf : ∀ r, s.get? i = some r → (f r).id = r.id ∧ (f r).ghost = r.ghost) :
    (s.modify i f).Consistent :=
  h.same (h.sound.modify i f) <|
    Arena.same_modify s.records i fun r hr => by rw [(hf r hr).1, (hf r hr).2]

theorem Consistent.size_eq {s : Store μ} (h : s.Consistent) :
    s.records.size = s.records.total (Record.unit false) + s.records.total (Record.unit true) := by
  rw [h.sound.size_eq, ← Arena.total_add]
  congr 1
  funext r
  cases e : r.ghost <;> simp [Record.unit, e]

/-- What the live count leaves of the records are the ghosts. -/
theorem Consistent.ghostCount_eq {s : Store μ} (h : s.Consistent) :
    s.ghostCount = .ok (s.records.total (Record.unit true)) := by
  have parts := h.size_eq
  rw [ghostCount, h.counted, subWord_of_le (by omega), parts, Nat.add_sub_cancel_left]

theorem settles_ofRequest {t : Tolerance} (req : Request) (now : Int) (tag : μ) :
    Settles t (Record.ofRequest req now tag) fun r =>
      ∃ expiry, r = ⟨req.id, req.size, req.time, req.time, now, req.next, expiry, .detached, false, tag⟩ := by
  unfold Record.ofRequest
  refine settles_bind (show Settles t _ fun _ => True from ?_) fun expiry _ =>
    settles_pure ⟨expiry, rfl⟩
  cases req.ttl with
  | none => exact trivial
  | some ttl => exact settles_map ((settles_addTime req.time ttl).mono fun _ _ => trivial)

theorem settles_ofRequest_expiry {t : Tolerance} (req : Request) (now : Int) (tag : μ) :
    Settles t (Record.ofRequest req now tag) fun r => r.expiry = req.ttl.map (req.time + ·) := by
  unfold Record.ofRequest
  cases req.ttl with
  | none => exact rfl
  | some ttl =>
    have sum : Settles t (some <$> addTime req.time ttl) fun e => e = some (req.time + ttl) := by
      apply settles_map
      apply (settles_addTime req.time ttl).mono
      intro sum e
      rw [e]
    apply settles_bind sum
    intro expiry e
    exact settles_pure e

theorem Consistent.filled_insert {s : Store μ} (h : s.Consistent) (id : Nat) {e : IndexEntry}
    (filled : e.isEmpty = false) (other : Nat) (f : IndexEntry) (hf : (s.index.insert id e)[other]? = some f) :
    f.isEmpty = false := by
  rw [Std.HashMap.getElem?_insert] at hf
  split at hf
  · cases hf
    exact filled
  · exact h.filled other f hf

structure Admits (s : Store μ) (req : Request) (now : Int) (tag : μ) (i : Slot) (s' : Store μ) :
    Prop where
  free : s.get? i = none
  record : ∃ expiry, s'.get? i = some
    ⟨req.id, req.size, req.time, req.time, now, req.next, expiry, .detached, false, tag⟩
  other : ∀ j, j ≠ i → s'.get? j = s.get? j
  consistent : s'.Consistent

theorem isSome_live_entry (s : Store μ) (id : Nat) : (s.entry id).live.isSome = s.caches id :=
  congrArg Option.isSome (s.of_entry id false)

theorem Consistent.settles_insert {t : Tolerance} {s : Store μ} (h : s.Consistent) {req : Request}
    (now : Int) (tag : μ) (free : s.find? req.id = none) :
    Settles t (s.insert req now tag) fun p => s.Admits req now tag p.1 p.2 := by
  unfold insert
  simp only [isSome_live_entry, caches, free, Option.isSome_none, Bool.false_eq_true, if_false]
  refine settles_bind (settles_ofRequest req now tag) ?_
  rintro r ⟨expiry, hr⟩
  have vacant := Arena.get?_insert_fst h.sound r
  have get := Arena.get?_insert h.sound r
  have sound := h.sound.insert r
  have total := Arena.total_insert h.sound r (Record.unit false)
  generalize s.records.insert r = p at vacant get sound total ⊢
  obtain ⟨i, records⟩ := p
  have other : ∀ j, j ≠ i → records.get? j = s.records.get? j := fun j hj => by simp [get, hj]
  have self : records.get? i = some r := by simp [get]
  have hid : r.id = req.id := by rw [hr]
  have live : r.ghost = false := by rw [hr]
  refine settles_pure ⟨vacant, ⟨expiry, by rw [← hr]; exact self⟩, other, sound, ?_, ?_, ?_⟩
  · refine h.indexes.gain vacant (by rw [live, hid]; exact free) (fun j => ?_) fun kind id => ?_
    · simp only [get?, get, eq_comm]
    · rw [slotOf_insert, hid, live]
      split
      · rename_i same
        subst same
        cases kind with
        | false => rw [if_pos ⟨rfl, rfl⟩]; rfl
        | true => rw [if_neg fun both => Bool.noConfusion both.2]; exact s.of_entry req.id true
      · rename_i other
        rw [if_neg fun both => other both.1]
  · exact h.filled_insert req.id rfl
  · dsimp only at total
    rw [total, h.counted, Record.unit, if_pos live]

theorem Consistent.settles_insert_expiry {t : Tolerance} {s : Store μ} (h : s.Consistent)
    {req : Request} (now : Int) (tag : μ) (free : s.find? req.id = none) :
    Settles t (s.insert req now tag) fun p =>
      ∀ r, p.2.get? p.1 = some r → r.expiry = req.ttl.map (req.time + ·) := by
  unfold insert
  simp only [isSome_live_entry, caches, free, Option.isSome_none, Bool.false_eq_true, if_false]
  apply settles_bind (settles_ofRequest_expiry req now tag)
  intro r hr
  apply settles_pure
  intro u hu
  have get := Arena.get?_insert h.sound r (s.records.insert r).1
  rw [if_pos rfl] at get
  cases get.symm.trans hu
  exact hr

theorem delete_of_get?_eq_none {s : Store μ} {i : Slot} (h : s.get? i = none) :
    s.delete i = .ok (none, s) := by
  rw [delete, Arena.remove_of_get?_eq_none h]
  rfl

theorem expectSlot_self (i : Slot) : expectSlot (some i) i = .ok () := if_pos rfl

theorem Consistent.one_le_liveCount {s : Store μ} (h : s.Consistent) {i : Slot} {r : Record μ}
    (hr : s.get? i = some r) (live : r.ghost = false) : 1 ≤ s.liveCount := by
  have part := s.records.weight_le_total (Record.unit false) i
  rwa [Arena.weight_of_get? hr, Record.unit, if_pos live, ← h.counted] at part

theorem Consistent.vacate {s : Store μ} (h : s.Consistent) {i : Slot} {r : Record μ} {e : IndexEntry}
    (hr : s.get? i = some r) (named : e.of r.ghost = some i) : ∃ n,
    s.vacate e r.ghost i = .ok (e.put r.ghost none, n) ∧
      n = (s.records.remove i).2.total (Record.unit false) := by
  have total := Arena.total_remove hr (Record.unit false)
  unfold Store.vacate
  cases ghost : r.ghost with
  | true =>
    rw [show e.ghost = some i by simpa [IndexEntry.of, ghost] using named, expectSlot_self]
    refine ⟨s.liveCount, rfl, ?_⟩
    rw [h.counted, ← total, Record.unit, if_neg (by simp [ghost]), Nat.add_zero]
  | false =>
    rw [show e.live = some i by simpa [IndexEntry.of, ghost] using named, expectSlot_self,
      subWord_of_le (h.one_le_liveCount hr ghost)]
    refine ⟨s.liveCount - 1, rfl, ?_⟩
    rw [h.counted, ← total, Record.unit, if_pos ghost, Nat.add_sub_cancel]

theorem Consistent.exists_delete {s : Store μ} (h : s.Consistent) {i : Slot} {r : Record μ}
    (hr : s.get? i = some r) : ∃ s', s.delete i = .ok (some r, s') ∧ s'.Consistent ∧
      ∀ j, s'.get? j = if i = j then none else s.get? j := by
  have slot : s.slotOf r.ghost r.id = some i := (h.indexes r.ghost r.id i).mpr ⟨r, hr, rfl, rfl⟩
  obtain ⟨e, he, named⟩ := Option.bind_eq_some_iff.mp slot
  have removed : s.records.remove i = (some r, (s.records.remove i).2) := by
    rw [← s.records.remove_fst i |>.trans hr]
  obtain ⟨n, vacated, counted⟩ := h.vacate hr named
  have get := s.records.get?_remove i
  have rest : ∀ kind, (e.put r.ghost none).of kind = if r.ghost = kind then none else s.slotOf kind r.id := by
    intro kind
    rw [IndexEntry.of_put, slotOf, he]
    rfl
  generalize e.put r.ghost none = f at vacated rest
  refine ⟨⟨_, if f.isEmpty then s.index.erase r.id else s.index.insert r.id f, n⟩, ?_,
    ⟨h.sound.remove i, ?_, ?_, counted⟩, get⟩
  · rw [delete, removed]
    simp only [he, vacated]
    rfl
  · refine h.indexes.lose hr get fun kind id => ?_
    have left : slotOf ⟨(s.records.remove i).2, if f.isEmpty then s.index.erase r.id else
        s.index.insert r.id f, n⟩ kind id = if r.id = id then f.of kind else s.slotOf kind id := by
      split
      · rename_i empty
        rw [slotOf_erase, (IndexEntry.isEmpty_iff f).mp empty kind]
      · exact slotOf_insert ..
    rw [left, rest]
    by_cases same : r.id = id
    · simp [same]
    · rw [if_neg same, if_neg fun both => same both.1]
  · intro id g hg
    dsimp only at hg
    split at hg
    · rw [Std.HashMap.getElem?_erase] at hg
      split at hg
      · cases hg
      · exact h.filled id g hg
    · rename_i filled
      exact h.filled_insert r.id (by simpa using filled) id g hg

def without (s : Store μ) (i : Slot) : Store μ :=
  match s.delete i with
  | .ok (_, s') => s'
  | .error _ => s

theorem Consistent.delete_eq {s : Store μ} (h : s.Consistent) (i : Slot) :
    s.delete i = .ok (s.get? i, s.without i) := by
  unfold without
  cases hr : s.get? i with
  | none => rw [delete_of_get?_eq_none hr]
  | some r =>
    obtain ⟨s', e, -⟩ := h.exists_delete hr
    rw [e]

theorem Consistent.without {s : Store μ} (h : s.Consistent) {i : Slot} {r : Record μ}
    (hr : s.get? i = some r) :
    (s.without i).Consistent ∧ ∀ j, (s.without i).get? j = if i = j then none else s.get? j := by
  obtain ⟨s', e, kept⟩ := h.exists_delete hr
  rwa [Store.without, e]

theorem Consistent.caches_without {s : Store μ} (h : s.Consistent) {i : Slot} {r : Record μ}
    (hr : s.get? i = some r) (live : r.ghost = false) (id : Nat) :
    (s.without i).caches id = true ↔ s.caches id = true ∧ id ≠ r.id := by
  obtain ⟨kept, get⟩ := h.without hr
  rw [kept.caches_iff, h.caches_iff]
  constructor
  · intro found
    obtain ⟨j, u, hu, hid, alive⟩ := found
    rw [get] at hu
    split at hu
    · cases hu
    · rename_i hij
      refine ⟨⟨j, u, hu, hid, alive⟩, fun same => hij ?_⟩
      exact h.live_unique hr hu live alive (same.symm.trans hid.symm)
  · intro found
    obtain ⟨⟨j, u, hu, hid, alive⟩, other⟩ := found
    refine ⟨j, u, ?_, hid, alive⟩
    rw [get, if_neg]
    · exact hu
    · intro e
      subst e
      rw [hr] at hu
      cases hu
      exact other hid.symm

theorem get?_displace (a : Arena (Record μ)) (o : Option Slot) (j : Slot) :
    (displace a o).2.get? j = if o = some j then none else a.get? j := by
  cases o with
  | none => simp [displace]
  | some k => simp [displace, Arena.get?_remove]

theorem sound_displace {a : Arena (Record μ)} (h : a.Sound) (o : Option Slot) :
    (displace a o).2.Sound := by
  cases o with
  | none => exact h
  | some k => exact h.remove k

theorem total_displace {a : Arena (Record μ)} {o : Option Slot}
    (ghost : ∀ k r, o = some k → a.get? k = some r → r.ghost = true) :
    (displace a o).2.total (Record.unit false) = a.total (Record.unit false) := by
  cases o with
  | none => rfl
  | some k =>
    cases hr : a.get? k with
    | none => rw [displace, Arena.remove_of_get?_eq_none hr]
    | some r =>
      have total := Arena.total_remove hr (Record.unit false)
      rw [Record.unit, if_neg (by rw [ghost k r rfl hr]; decide)] at total
      exact total

/-- The older ghost of an object goes when a newer one, `g`, stands in a cell of its own. -/
theorem Consistent.displace_older {s : Store μ} (h : s.Consistent) {b : Arena (Record μ)} {k : Slot}
    {g : Record μ} {id : Nat} (here : b.get? k = some g) (elsewhere : ∀ j, j ≠ k → b.get? j = s.get? j)
    (apart : s.findGhost? id ≠ some k) :
    (displace b (s.findGhost? id)).1 = (s.findGhost? id).bind s.get? ∧
      (displace b (s.findGhost? id)).2.get? k = some g ∧
      (∀ j, j ≠ k → (displace b (s.findGhost? id)).2.get? j =
        if s.findGhost? id = some j then none else s.get? j) ∧
      (displace b (s.findGhost? id)).2.total (Record.unit false) = b.total (Record.unit false) := by
  have get := get?_displace b (s.findGhost? id)
  have other : ∀ {j}, s.findGhost? id = some j → j ≠ k := fun found same => apart (same ▸ found)
  refine ⟨?_, by rw [get, if_neg apart, here], fun j hj => by rw [get, elsewhere j hj], total_displace ?_⟩
  · cases found : s.findGhost? id with
    | none => rfl
    | some j => exact (b.remove_fst j).trans (elsewhere j (other found))
  · intro j u found hu
    obtain ⟨v, hv, -, ghost⟩ := (h.findGhost?_eq_some_iff id j).mp found
    rw [elsewhere j (other found)] at hu
    cases hu.symm.trans hv
    exact ghost

/-- The record loses its place among the live ones, and the older ghost its own, before it is filed again. -/
theorem Consistent.exists_demote {s : Store μ} (h : s.Consistent) {i : Slot} {r : Record μ}
    (hr : s.get? i = some r) (live : r.ghost = false) :
    ∃ s', s.demote i = .ok ((s.findGhost? r.id).bind s.get?, s') ∧ s'.Consistent ∧
      s'.get? i = some { r with ghost := true } ∧
      ∀ j, j ≠ i → s'.get? j = if s.findGhost? r.id = some j then none else s.get? j := by
  have older : (s.entry r.id).ghost = s.findGhost? r.id := s.of_entry r.id true
  have apart : s.findGhost? r.id ≠ some i := by
    intro e
    obtain ⟨u, hu, -, ghost⟩ := (h.findGhost?_eq_some_iff r.id i).mp e
    cases hr.symm.trans hu
    cases live.symm.trans ghost
  have mid := fun j => s.records.get?_modify i j fun r => { r with ghost := true }
  have sound := h.sound.modify i fun r => { r with ghost := true }
  have marking := Arena.total_modify hr (fun r => { r with ghost := true }) (Record.unit false)
  rw [Record.unit, if_pos live, Record.unit, if_neg (by simp)] at marking
  unfold Store.demote
  simp only [hr, live, Bool.false_eq_true, if_false, subWord_of_le (h.one_le_liveCount hr live), older]
  generalize (s.records.modify i fun r => { r with ghost := true }) = b at mid sound marking ⊢
  have marked : b.get? i = some { r with ghost := true } := by
    rw [mid, if_pos rfl, show s.records.get? i = some r from hr]
    rfl
  obtain ⟨freed, self, other, uncounted⟩ :=
    h.displace_older marked (fun j hj => (mid j).trans (if_neg (Ne.symm hj))) apart
  refine ⟨⟨(displace b (s.findGhost? r.id)).2, s.index.insert r.id ⟨none, some i⟩, s.liveCount - 1⟩,
    by rw [← freed]; rfl, ⟨sound_displace sound _, ?_, ?_, ?_⟩, self, other⟩
  · have lost : Indexes (fun j => if i = j then none else s.get? j)
        fun kind id => if r.id = id ∧ r.ghost = kind then none else s.slotOf kind id :=
      h.indexes.lose hr (fun _ => rfl) fun _ _ => rfl
    have still : (if r.id = r.id ∧ r.ghost = true then none else s.slotOf true r.id) = s.findGhost? r.id :=
      if_neg fun both => Bool.noConfusion (live.symm.trans both.2)
    have displaced : Indexes (fun j => if i = j ∨ s.findGhost? r.id = some j then none else s.get? j)
        fun kind id => if r.id = id then none else s.slotOf kind id := by
      refine lost.displace r.id (fun j => ?_) fun kind id => ?_
      · rw [still]
        by_cases e : s.findGhost? r.id = some j <;> by_cases same : i = j <;> simp [e, same]
      · by_cases same : r.id = id <;> cases kind <;> simp [same, live]
    refine displaced.gain (i := i) (r := { r with ghost := true }) (if_pos (.inl rfl)) (if_pos rfl)
      (fun j => ?_) fun kind id => ?_
    · by_cases e : i = j
      · rw [if_pos e, ← e]
        exact self
      · rw [if_neg e]
        refine (other j (Ne.symm e)).trans ?_
        simp [e]
    · rw [slotOf_insert]
      by_cases same : r.id = id <;> cases kind <;> simp [same, IndexEntry.of]
  · exact h.filled_insert r.id rfl
  · dsimp only
    rw [uncounted, h.counted]
    omega

/-- What a demotion leaves. -/
def demoted (s : Store μ) (i : Slot) : Store μ :=
  match s.demote i with
  | .ok (_, s') => s'
  | .error _ => s

section
variable {s : Store μ} (h : s.Consistent) {i : Slot} {r : Record μ} (hr : s.get? i = some r)
  (live : r.ghost = false)
include h hr live

theorem Consistent.demote_eq : s.demote i = .ok ((s.findGhost? r.id).bind s.get?, s.demoted i) := by
  obtain ⟨s', e, -⟩ := h.exists_demote hr live
  rw [demoted, e]

theorem Consistent.demoted :
    (s.demoted i).Consistent ∧ (s.demoted i).get? i = some { r with ghost := true } ∧
      ∀ j, j ≠ i → (s.demoted i).get? j = if s.findGhost? r.id = some j then none else s.get? j := by
  obtain ⟨s', e, kept⟩ := h.exists_demote hr live
  rwa [Store.demoted, e]

/-- A fork puts a ghost copy into a free cell and frees the older ghost of its object. -/
theorem Consistent.forkGhost :
    ∃ k, (s.forkGhost i).1 = some k ∧ s.get? k = none ∧ (s.forkGhost i).2.Consistent ∧
      (s.forkGhost i).2.get? k = some { r with ghost := true, links := .detached } ∧
      ∀ j, j ≠ k → (s.forkGhost i).2.get? j =
        if s.findGhost? r.id = some j then none else s.get? j := by
  have older : (s.entry r.id).ghost = s.findGhost? r.id := s.of_entry r.id true
  have vacant := Arena.get?_insert_fst h.sound { r with ghost := true, links := .detached }
  have mid := Arena.get?_insert h.sound { r with ghost := true, links := .detached }
  have sound := h.sound.insert { r with ghost := true, links := .detached }
  have total := Arena.total_insert h.sound { r with ghost := true, links := .detached } (Record.unit false)
  unfold Store.forkGhost
  simp only [hr, live, Bool.false_eq_true, if_false, older]
  generalize s.records.insert { r with ghost := true, links := .detached } = p at vacant mid sound total ⊢
  obtain ⟨k, records⟩ := p
  dsimp only at vacant mid sound total ⊢
  have vacant : s.get? k = none := vacant
  have apart : s.findGhost? r.id ≠ some k := by
    intro e
    obtain ⟨u, hu, -, -⟩ := (h.findGhost?_eq_some_iff r.id k).mp e
    rw [vacant] at hu
    cases hu
  obtain ⟨-, self, other, uncounted⟩ :=
    h.displace_older ((mid k).trans (if_pos rfl)) (fun j hj => (mid j).trans (if_neg hj)) apart
  refine ⟨k, rfl, vacant, ⟨sound_displace sound _, ?_, ?_, ?_⟩, self, other⟩
  · have displaced : Indexes (fun j => if s.findGhost? r.id = some j then none else s.get? j)
        fun kind id => if r.id = id ∧ true = kind then none else s.slotOf kind id :=
      h.indexes.displace r.id (fun _ => rfl) fun _ _ => rfl
    refine displaced.gain (i := k) (r := { r with ghost := true, links := .detached })
      (by simp [vacant]) (if_pos ⟨rfl, rfl⟩) (fun j => ?_) fun kind id => ?_
    · by_cases e : k = j
      · rw [if_pos e, ← e]
        exact self
      · rw [if_neg e]
        exact other j (Ne.symm e)
    · rw [slotOf_insert]
      cases kind with
      | true => by_cases same : r.id = id <;> simp [same, IndexEntry.of]
      | false =>
        by_cases same : r.id = id
        · rw [if_pos same, ← same]
          exact (s.of_entry r.id false).trans (by simp)
        · simp [same]
  · exact h.filled_insert r.id (IndexEntry.isEmpty_of_eq_some (show IndexEntry.of _ true = some k from rfl))
  · dsimp only
    rw [uncounted, total, h.counted, Record.unit, if_neg (by simp), Nat.add_zero]

end

def live? (s : Store μ) (i : Slot) : Option (Record μ) := (s.get? i).filter fun r => !r.ghost

theorem live?_eq_some_iff (s : Store μ) (i : Slot) (r : Record μ) :
    s.live? i = some r ↔ s.get? i = some r ∧ r.ghost = false := by
  simp [live?, Option.filter_eq_some_iff]

theorem live?_of_ghost {s : Store μ} {i : Slot} {r : Record μ} (hr : s.get? i = some r)
    (ghost : r.ghost = true) : s.live? i = none := by
  simp [live?, hr, ghost]

theorem live?_of_none {s : Store μ} {i : Slot} (h : s.get? i = none) : s.live? i = none := by
  simp [live?, h]

theorem live?_congr {s t : Store μ} {i : Slot} (h : t.get? i = s.get? i) :
    t.live? i = s.live? i := by
  rw [live?, live?, h]

theorem Consistent.caches_iff_live {s : Store μ} (h : s.Consistent) (id : Nat) :
    s.caches id = true ↔ ∃ i r, s.live? i = some r ∧ r.id = id := by
  rw [h.caches_iff]
  constructor
  · intro found
    obtain ⟨i, r, hr, hid, live⟩ := found
    exact ⟨i, r, (s.live?_eq_some_iff i r).mpr ⟨hr, live⟩, hid⟩
  · intro found
    obtain ⟨i, r, hr, hid⟩ := found
    have some := (s.live?_eq_some_iff i r).mp hr
    exact ⟨i, r, some.1, hid, some.2⟩

theorem live?_modify (s : Store μ) (i : Slot) {f : Record μ → Record μ}
    (hf : ∀ r, s.get? i = some r → (f r).ghost = r.ghost) (j : Slot) :
    (s.modify i f).live? j = if i = j then (s.live? j).map f else s.live? j := by
  rw [live?, live?, get?_modify]
  split
  · rename_i e
    subst e
    cases hr : s.get? i with
    | none => rfl
    | some r => cases ghost : r.ghost <;> simp [Option.filter, hf r hr, ghost]
  · rfl

theorem Admits.live? {s s' : Store μ} {req : Request} {now : Int} {tag : μ} {i : Slot}
    (h : s.Admits req now tag i s') : ∃ expiry, ∀ j, s'.live? j = if i = j then
      some ⟨req.id, req.size, req.time, req.time, now, req.next, expiry, .detached, false, tag⟩
      else s.live? j := by
  obtain ⟨expiry, hr⟩ := h.record
  refine ⟨expiry, fun j => ?_⟩
  split
  · rename_i e
    subst e
    exact (live?_eq_some_iff s' i _).mpr ⟨hr, rfl⟩
  · rename_i e
    exact live?_congr (h.other j (Ne.symm e))

section
variable {s : Store μ} (h : s.Consistent) {i : Slot} {r : Record μ} (hr : s.get? i = some r)
include h hr

theorem Consistent.live?_without (j : Slot) :
    (s.without i).live? j = if i = j then none else s.live? j := by
  have get := (h.without hr).2 j
  split
  · rename_i e
    rw [if_pos e] at get
    exact live?_of_none get
  · rename_i e
    rw [if_neg e] at get
    exact live?_congr get

theorem Consistent.live?_forget (ghost : r.ghost = true) (j : Slot) :
    (s.without i).live? j = s.live? j := by
  rw [h.live?_without hr]
  split
  · rename_i e
    rw [← e, live?_of_ghost hr ghost]
  · rfl

variable (live : r.ghost = false)
include live

omit hr live in
theorem Consistent.live?_of_displaced {t : Store μ} {id : Nat} {j : Slot}
    (get : t.get? j = if s.findGhost? id = some j then none else s.get? j) :
    t.live? j = s.live? j := by
  by_cases k : s.findGhost? id = some j
  · rw [if_pos k] at get
    obtain ⟨u, hu, -, ghost⟩ := (h.findGhost?_eq_some_iff id j).mp k
    rw [live?_of_none get, live?_of_ghost hu ghost]
  · rw [if_neg k] at get
    exact live?_congr get

theorem Consistent.live?_demoted (j : Slot) :
    (s.demoted i).live? j = if i = j then none else s.live? j := by
  obtain ⟨-, self, other⟩ := h.demoted hr live
  split
  · rename_i e
    subst e
    exact live?_of_ghost self rfl
  · rename_i e
    exact h.live?_of_displaced (other j (Ne.symm e))

theorem Consistent.live?_forkGhost (j : Slot) : (s.forkGhost i).2.live? j = s.live? j := by
  obtain ⟨k, -, vacant, -, self, other⟩ := h.forkGhost hr live
  by_cases e : j = k
  · rw [e, live?_of_ghost self rfl, live?_of_none vacant]
  · exact h.live?_of_displaced (other j e)

end

end Store
end CacheReplay
