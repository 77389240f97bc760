import CacheReplay.Account
import CacheReplay.Proofs.Store

set_option autoImplicit false

namespace CacheReplay

theorem Audit.liftM_ok_bind {α β : Type} (a : α) (f : α → Audit β) :
    (liftM (Except.ok a : Checked α) : Audit α) >>= f = f a := rfl

variable {μ : Type}

namespace Store

def liveSize? (s : Store μ) (i : Slot) : Option Nat := (s.live? i).map (·.size)

theorem liveSize?_of_live {s : Store μ} {i : Slot} {r : Record μ} (hr : s.get? i = some r)
    (live : r.ghost = false) : s.liveSize? i = some r.size := by
  rw [liveSize?, (s.live?_eq_some_iff i r).mpr ⟨hr, live⟩]
  rfl

theorem liveSize?_of_ghost {s : Store μ} {i : Slot} {r : Record μ} (hr : s.get? i = some r)
    (ghost : r.ghost = true) : s.liveSize? i = none := by
  rw [liveSize?, live?_of_ghost hr ghost]
  rfl

theorem liveSize?_of_none {s : Store μ} {i : Slot} (h : s.get? i = none) : s.liveSize? i = none := by
  rw [liveSize?, live?_of_none h]
  rfl

theorem weight_unit (s : Store μ) (i : Slot) :
    s.records.weight (Record.unit false) i = (s.liveSize? i).elim 0 fun _ => 1 := by
  rw [liveSize?, live?, get?, Arena.weight]
  cases s.records.get? i with
  | none => rfl
  | some r => cases h : r.ghost <;> simp [Record.unit, Option.filter, h]

theorem weight_liveBytes (s : Store μ) (overhead : Nat) (i : Slot) :
    s.records.weight (Record.liveBytes overhead) i = (s.liveSize? i).elim 0 (· + overhead) := by
  rw [liveSize?, live?, get?, Arena.weight]
  cases s.records.get? i with
  | none => rfl
  | some r => cases h : r.ghost <;> simp [Record.liveBytes, Option.filter, h]

section
variable {s : Store μ} (h : s.Consistent) {i : Slot} {r : Record μ} (hr : s.get? i = some r)
include h hr

theorem Consistent.liveSize?_without (j : Slot) :
    (s.without i).liveSize? j = if i = j then none else s.liveSize? j := by
  rw [liveSize?, h.live?_without hr]
  split <;> rfl

variable (live : r.ghost = false)
include live

theorem Consistent.liveSize?_demoted (j : Slot) :
    (s.demoted i).liveSize? j = if i = j then none else s.liveSize? j := by
  rw [liveSize?, h.live?_demoted hr live]
  split <;> rfl

end

theorem liveSize?_same {s : Store μ} {records : Arena (Record μ)}
    (same : s.records.Same (fun r => (r.size, r.ghost)) records) (j : Slot) :
    liveSize? { s with records } j = s.liveSize? j := by
  have read : ∀ t : Store μ, t.liveSize? j =
      ((t.records.get? j).map fun r => (r.size, r.ghost)).bind fun e => if e.2 then none else some e.1 := by
    intro t
    rw [liveSize?, live?, get?]
    cases t.records.get? j with
    | none => rfl
    | some r => cases h : r.ghost <;> simp [Option.filter, h]
  rw [read, read, same j]

theorem liveSize?_modify (s : Store μ) (i : Slot) {f : Record μ → Record μ}
    (hf : ∀ r, s.get? i = some r → (f r).size = r.size ∧ (f r).ghost = r.ghost) (j : Slot) :
    (s.modify i f).liveSize? j = s.liveSize? j :=
  liveSize?_same (Arena.same_modify s.records i fun r hr => by rw [(hf r hr).1, (hf r hr).2]) j

theorem Admits.liveSize? {s s' : Store μ} {req : Request} {now : Int} {tag : μ} {i : Slot}
    (h : s.Admits req now tag i s') (j : Slot) :
    s'.liveSize? j = if i = j then some req.size else s.liveSize? j := by
  obtain ⟨expiry, get⟩ := h.live?
  rw [Store.liveSize?, get]
  split <;> rfl

end Store

namespace Account

/-- What serving a request does not change, once it is counted. -/
structure SameTerms (a b : Account) : Prop where
  capacity : b.capacity = a.capacity
  overhead : b.overhead = a.overhead
  requests : b.requests = a.requests
  clock : b.clock = a.clock

namespace SameTerms
variable {a b c : Account}

theorem refl (a : Account) : SameTerms a a := ⟨rfl, rfl, rfl, rfl⟩

theorem trans (h : SameTerms a b) (k : SameTerms b c) : SameTerms a c :=
  ⟨k.capacity.trans h.capacity, k.overhead.trans h.overhead, k.requests.trans h.requests,
    k.clock.trans h.clock⟩

end SameTerms

def charged (a : Account) (size : Nat) : Account :=
  { a with occupied := a.occupied + (size + a.overhead), objects := a.objects + 1 }

def released (a : Account) (size : Nat) : Account :=
  { a with occupied := a.occupied - (size + a.overhead), objects := a.objects - 1 }

theorem sameTerms_charged (a : Account) (size : Nat) : SameTerms a (a.charged size) :=
  ⟨rfl, rfl, rfl, rfl⟩

theorem sameTerms_released (a : Account) (size : Nat) : SameTerms a (a.released size) :=
  ⟨rfl, rfl, rfl, rfl⟩

structure Balanced (a : Account) (s : Store μ) : Prop where
  objects : a.objects = s.records.total (Record.unit false)
  occupied : a.occupied = s.records.total (Record.liveBytes a.overhead)
  word : IsWord a.occupied

theorem balanced_empty (capacity overhead : Nat) :
    (empty capacity overhead).Balanced (Store.empty : Store μ) :=
  ⟨by simp [empty, Store.empty, Arena.empty, Arena.total],
    by simp [empty, Store.empty, Arena.empty, Arena.total], by simp [empty, IsWord, wordBound]⟩

section
variable {t : Tolerance} {a : Account}

theorem settles_footprint (a : Account) (size : Nat) :
    Settles t (a.footprint size) fun bytes => bytes = size + a.overhead ∧ IsWord bytes :=
  settles_addWord size a.overhead

theorem footprint_of_isWord {size : Nat} (word : IsWord (size + a.overhead)) :
    a.footprint size = .ok (size + a.overhead) :=
  addWord_of_isWord word

theorem settles_charge (a : Account) (size : Nat) :
    Settles t (a.charge size) fun b => b = a.charged size ∧ IsWord b.occupied := by
  refine settles_bind (settles_footprint a size) ?_
  rintro bytes ⟨rfl, -⟩
  refine settles_bind (settles_addWord _ _) ?_
  rintro occupied ⟨rfl, word⟩
  refine settles_bind (settles_addWord _ _) ?_
  rintro objects ⟨rfl, -⟩
  exact settles_pure ⟨rfl, word⟩

theorem settles_recordExpired (a : Account) :
    Settles t a.recordExpired fun b => ∃ expired, b = { a with expired } := by
  refine settles_bind (settles_addWord _ _) fun expired _ => ?_
  exact settles_pure ⟨expired, rfl⟩

namespace Balanced
variable {s s' : Store μ} (h : a.Balanced s) {i : Slot} {n : Nat}
include h

theorem keep (off : ∀ j, s'.liveSize? j = s.liveSize? j) : a.Balanced s' where
  objects := by
    rw [h.objects]
    exact (Arena.total_congr fun j => by rw [Store.weight_unit, Store.weight_unit, off]).symm
  occupied := by
    rw [h.occupied]
    exact (Arena.total_congr fun j => by
      rw [Store.weight_liveBytes, Store.weight_liveBytes, off]).symm
  word := h.word

/-- The footprint of a live record is part of the occupied bytes. -/
theorem covers (hi : s.liveSize? i = some n) : n + a.overhead ≤ a.occupied ∧ 0 < a.objects := by
  have one := s.records.weight_le_total (Record.unit false) i
  have bytes := s.records.weight_le_total (Record.liveBytes a.overhead) i
  rw [Store.weight_unit, hi, ← h.objects] at one
  rw [Store.weight_liveBytes, hi, ← h.occupied] at bytes
  exact ⟨bytes, one⟩

theorem release_eq (hi : s.liveSize? i = some n) : a.release n = .ok (a.released n) := by
  have covers := h.covers hi
  rw [release, footprint_of_isWord (h.word.of_le covers.1), ok_bind, if_pos covers]
  rfl

theorem settles_release (hi : s.liveSize? i = some n) :
    Settles t (a.release n) fun b => b = a.released n := by
  rw [h.release_eq hi]
  exact settles_pure rfl

theorem released (hi : s.liveSize? i = some n)
    (off : ∀ j, s'.liveSize? j = if i = j then none else s.liveSize? j) :
    (a.released n).Balanced s' := by
  have weights : ∀ w : Record μ → Nat, ∀ f : Nat → Nat,
      (∀ (s : Store μ) j, s.records.weight w j = (s.liveSize? j).elim 0 f) →
      s'.records.total w + f n = s.records.total w := by
    intro w f hw
    have ex := Arena.total_exchange_weight (a := s.records) (b := s'.records) (i := i) (w := w)
      fun j hj => by rw [hw, hw, off, if_neg (Ne.symm hj)]
    rw [hw s i, hi, hw s' i, off, if_pos rfl] at ex
    exact ex
  have one := weights _ _ Store.weight_unit
  have bytes := weights _ _ fun s j => Store.weight_liveBytes s a.overhead j
  rw [← h.objects] at one
  rw [← h.occupied] at bytes
  refine ⟨?_, ?_, Nat.lt_of_le_of_lt (Nat.sub_le _ _) h.word⟩
  · show a.objects - 1 = _
    omega
  · show a.occupied - (n + a.overhead) = s'.records.total (Record.liveBytes a.overhead)
    omega

theorem charged (hi : s.liveSize? i = none)
    (off : ∀ j, s'.liveSize? j = if i = j then some n else s.liveSize? j)
    (word : IsWord (a.charged n).occupied) : (a.charged n).Balanced s' := by
  have weights : ∀ w : Record μ → Nat, ∀ f : Nat → Nat,
      (∀ (s : Store μ) j, s.records.weight w j = (s.liveSize? j).elim 0 f) →
      s'.records.total w = s.records.total w + f n := by
    intro w f hw
    have ex := Arena.total_exchange_weight (a := s.records) (b := s'.records) (i := i) (w := w)
      fun j hj => by rw [hw, hw, off, if_neg (Ne.symm hj)]
    rw [hw s i, hi, hw s' i, off, if_pos rfl] at ex
    exact ex
  have one := weights _ _ Store.weight_unit
  have bytes := weights _ _ fun s j => Store.weight_liveBytes s a.overhead j
  rw [← h.objects] at one
  rw [← h.occupied] at bytes
  exact ⟨one.symm, bytes.symm, word⟩

theorem occupied_eq_zero (empty : a.objects = 0) : a.occupied = 0 := by
  rw [h.objects, Arena.total_eq_zero_iff] at empty
  rw [h.occupied, Arena.total_eq_zero_iff]
  intro i r hr
  have := empty i r hr
  cases e : r.ghost with
  | true => simp [Record.liveBytes, e]
  | false => simp [Record.unit, e] at this

theorem exists_live (some : 0 < a.objects) : ∃ i r, s.get? i = .some r ∧ r.ghost = false := by
  by_contra none
  push Not at none
  have zero : s.records.total (Record.unit false) = 0 := by
    rw [Arena.total_eq_zero_iff]
    intro i r hr
    simp [Record.unit, none i r hr]
  rw [h.objects, zero] at some
  exact Nat.lt_irrefl 0 some

end Balanced
end

theorem footprints_eq (a : Account) (rs : List (Record μ))
    (word : IsWord (rs.map fun r => r.size + a.overhead).sum) :
    a.footprints rs = .ok (rs.map fun r => r.size + a.overhead).sum := by
  have step : ∀ (rs : List (Record μ)) (sum : Nat),
      IsWord (sum + (rs.map fun r => r.size + a.overhead).sum) →
      rs.foldlM (fun sum r => do addWord sum (← a.footprint r.size)) sum =
        (.ok (sum + (rs.map fun r => r.size + a.overhead).sum) : Checked Nat) := by
    intro rs
    induction rs with
    | nil => intro sum _; rfl
    | cons r rs ih =>
      intro sum word
      rw [List.map_cons, List.sum_cons] at word ⊢
      have own : IsWord (r.size + a.overhead) := by
        unfold IsWord at word ⊢
        omega
      have grown : IsWord (sum + (r.size + a.overhead)) := by
        unfold IsWord at word ⊢
        omega
      have hr : a.footprint r.size = .ok (r.size + a.overhead) :=
        (a.footprint_eq_ok_iff _ _).mpr ⟨rfl, own⟩
      have hsum := (addWord_eq_ok_iff _ _ _).mpr ⟨rfl, grown⟩
      rw [List.foldlM_cons, hr]
      show (addWord sum (r.size + a.overhead) >>= _) = _
      rw [hsum]
      show List.foldlM _ _ rs = _
      rw [ih _ (by rwa [Nat.add_assoc]), Nat.add_assoc]
  have := step rs 0 (by rwa [Nat.zero_add])
  rwa [Nat.zero_add] at this

end Account

namespace Store

theorem sum_liveList (s : Store μ) (w : Record μ → Nat) :
    (s.liveList.map fun e => w e.2).sum = s.records.total fun r => if r.ghost then 0 else w r := by
  rw [← Arena.sum_toList, liveList, toList]
  induction s.records.toList with
  | nil => rfl
  | cons e es ih => cases h : e.2.ghost <;> simp [h, ih]

/-- The cells that the index names for live records, or for ghosts. -/
def indexedSlots (s : Store μ) (kind : Bool) : List Slot :=
  s.index.toList.flatMap fun e => (e.2.of kind).toList

theorem Consistent.entryFlaw_eq_none {s : Store μ} (h : s.Consistent) {id : Nat} {e : IndexEntry}
    (he : s.index[id]? = some e) : s.entryFlaw id e = none := by
  have sound : ∀ kind, s.slotFlaw id kind (e.of kind) = none := by
    intro kind
    cases hi : e.of kind with
    | none => rfl
    | some i =>
      have slot : s.slotOf kind id = some i := by rw [slotOf, he]; exact hi
      obtain ⟨r, hr, hid, hk⟩ := (h.indexes kind id i).mp slot
      simp [slotFlaw, hr, hid, hk]
  have live : s.slotFlaw id false e.live = none := sound false
  have ghost : s.slotFlaw id true e.ghost = none := sound true
  rw [entryFlaw, h.filled id e he, live, ghost]
  rfl

theorem tally_eq (s : Store μ) {entries : List (Nat × IndexEntry)}
    (sound : ∀ e ∈ entries, s.entryFlaw e.1 e.2 = none) (indexed live : Nat) :
    s.tally entries (indexed, live) = pure
      (indexed + (entries.flatMap fun e => (e.2.of false).toList).length +
          (entries.flatMap fun e => (e.2.of true).toList).length,
        live + (entries.flatMap fun e => (e.2.of false).toList).length) := by
  induction entries generalizing indexed live with
  | nil => rfl
  | cons e rest ih =>
    obtain ⟨id, e⟩ := e
    rw [List.forall_mem_cons] at sound
    rw [tally, sound.1, Audit.reject, pure_bind, ih sound.2]
    simp only [List.flatMap_cons, List.length_append, show e.of false = e.live from rfl,
      show e.of true = e.ghost from rfl]
    congr 2 <;> omega

theorem Consistent.nodup_indexedSlots {s : Store μ} (h : s.Consistent) (kind : Bool) :
    (s.indexedSlots kind).Nodup := by
  rw [indexedSlots, List.nodup_flatMap]
  constructor
  · intro e _
    cases e.2.of kind <;> simp
  · refine s.index.distinct_keys_toList.imp_of_mem fun {e f} he hf apart => ?_
    intro i hi hj
    have named : ∀ g ∈ s.index.toList, i ∈ (g.2.of kind).toList → s.slotOf kind g.1 = some i := by
      intro g hg hi
      rw [slotOf, Std.HashMap.mem_toList_iff_getElem?_eq_some.mp hg]
      exact Option.mem_toList.mp hi
    obtain ⟨r, hr, hid, -⟩ := (h.indexes kind e.1 i).mp (named e he hi)
    obtain ⟨u, hu, hid', -⟩ := (h.indexes kind f.1 i).mp (named f hf hj)
    cases hr.symm.trans hu
    rw [← hid, ← hid'] at apart
    simp at apart

theorem Consistent.mem_indexedSlots {s : Store μ} (h : s.Consistent) {kind : Bool} {i : Slot} :
    i ∈ s.indexedSlots kind ↔ ∃ r, s.get? i = some r ∧ r.ghost = kind := by
  simp only [indexedSlots, List.mem_flatMap, Option.mem_toList]
  constructor
  · rintro ⟨e, he, hi⟩
    have slot : s.slotOf kind e.1 = some i := by
      rw [slotOf, Std.HashMap.mem_toList_iff_getElem?_eq_some.mp he]
      exact hi
    obtain ⟨r, hr, -, hk⟩ := (h.indexes kind e.1 i).mp slot
    exact ⟨r, hr, hk⟩
  · rintro ⟨r, hr, hk⟩
    obtain ⟨e, he, hi⟩ := Option.bind_eq_some_iff.mp ((h.indexes kind r.id i).mpr ⟨r, hr, rfl, hk⟩)
    exact ⟨(r.id, e), Std.HashMap.mem_toList_iff_getElem?_eq_some.mpr he, hi⟩

/-- The index names every record of a kind once. -/
theorem Consistent.length_indexedSlots {s : Store μ} (h : s.Consistent) (kind : Bool) :
    (s.indexedSlots kind).length = s.records.total (Record.unit kind) := by
  rw [← Arena.sum_eq_total (h.nodup_indexedSlots kind) fun i r hr counted => ?_]
  · have ones : ∀ i ∈ s.indexedSlots kind, s.records.weight (Record.unit kind) i = 1 := by
      intro i hi
      obtain ⟨r, hr, hk⟩ := h.mem_indexedSlots.mp hi
      rw [Arena.weight_of_get? hr, Record.unit, if_pos hk]
    rw [List.map_congr_left ones, List.map_const', List.sum_replicate_nat, Nat.mul_one]
  · refine h.mem_indexedSlots.mpr ⟨r, hr, ?_⟩
    by_contra other
    exact counted (if_neg other)

theorem Consistent.audit_eq {s : Store μ} (h : s.Consistent) : s.audit = pure () := by
  have sizes : s.records.size = (s.indexedSlots false).length + (s.indexedSlots true).length := by
    rw [h.length_indexedSlots, h.length_indexedSlots]
    exact h.size_eq
  have live := h.counted.trans (h.length_indexedSlots false).symm
  have tally : s.tally s.index.toList (0, 0) = pure (s.records.size, s.liveCount) := by
    rw [sizes, live]
    exact (s.tally_eq (fun e he =>
      h.entryFlaw_eq_none (Std.HashMap.mem_toList_iff_getElem?_eq_some.mp he)) 0 0).trans (by
        simp only [Nat.zero_add, indexedSlots])
  rw [audit, tally, pure_bind]
  simp

end Store

theorem Account.Balanced.audit_eq {a : Account} {s : Store μ} (h : a.Balanced s)
    (consistent : s.Consistent) (within : a.occupied ≤ a.capacity) : a.audit s = pure () := by
  have count : (s.liveList.map (·.2)).length = a.objects := by
    have := s.sum_liveList fun _ => 1
    rw [h.objects, List.length_map]
    have ones : (fun r : Record μ => if r.ghost then 0 else 1) = Record.unit false := by
      funext r
      cases e : r.ghost <;> simp [Record.unit, e]
    rw [ones] at this
    simpa using this
  have sum : ((s.liveList.map (·.2)).map fun r => r.size + a.overhead).sum = a.occupied := by
    rw [List.map_map, h.occupied]
    exact s.sum_liveList fun r => r.size + a.overhead
  have bytes := a.footprints_eq (s.liveList.map (·.2)) (by rw [sum]; exact h.word)
  rw [sum] at bytes
  rw [audit, bytes, Audit.liftM_ok_bind, count]
  simp only [ne_eq, not_true_eq_false, if_false, Nat.not_lt.mpr within, consistent.audit_eq]

end CacheReplay
