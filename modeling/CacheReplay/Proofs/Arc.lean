import CacheReplay.Policy.Arc
import CacheReplay.Proofs.Run
import Mathlib.Algebra.BigOperators.Group.List.Basic

set_option autoImplicit false

namespace CacheReplay

def Record.place (r : Record Tier) : Tier × Bool := (r.tag, r.ghost)

namespace Arc

variable {t : Tolerance}

def chains (c : Arc) (k : Tier × Bool) : Chain := (c.list k.1 k.2).order

theorem list_withList (c : Arc) (l : SizedChain) (k m : Tier × Bool) :
    (c.withList l k.1 k.2).list m.1 m.2 = if m = k then l else c.list m.1 m.2 := by
  obtain ⟨tier, ghost⟩ := k
  obtain ⟨tier', ghost'⟩ := m
  cases tier <;> cases ghost <;> cases tier' <;> cases ghost' <;> rfl

section
variable (c : Arc) (l : SizedChain) (tier : Tier) (ghost : Bool)

theorem store_withList : (c.withList l tier ghost).store = c.store := by
  cases tier <;> cases ghost <;> rfl

theorem account_withList : (c.withList l tier ghost).account = c.account := by
  cases tier <;> cases ghost <;> rfl

theorem target_withList : (c.withList l tier ghost).target = c.target := by
  cases tier <;> cases ghost <;> rfl

theorem ghostHit_withList : (c.withList l tier ghost).ghostHit = c.ghostHit := by
  cases tier <;> cases ghost <;> rfl

end

theorem list_mk (c : Arc) (account : Account) (store : Store Tier) (target : Float)
    (ghostHit : Option Tier) (k : Tier × Bool) :
    (mk account store c.t1 c.t2 c.b1 c.b2 target ghostHit).list k.1 k.2 = c.list k.1 k.2 := by
  obtain ⟨tier, ghost⟩ := k
  cases tier <;> cases ghost <;> rfl

def held (overhead : Nat) (a : Arena (Record Tier)) (s : List Slot) : Nat :=
  (s.map (a.weight fun r => r.size + overhead)).sum

theorem held_congr {overhead : Nat} {a b : Arena (Record Tier)} {s : List Slot}
    (h : ∀ j ∈ s, (b.get? j).map Record.size = (a.get? j).map Record.size) :
    held overhead b s = held overhead a s := by
  have weight : ∀ (a : Arena (Record Tier)) j, a.weight (fun r => r.size + overhead) j =
      ((a.get? j).map Record.size).elim 0 (· + overhead) := by
    intro a j
    rw [Arena.weight]
    cases a.get? j <;> rfl
  refine congrArg List.sum (List.map_congr_left fun j hj => ?_)
  rw [weight, weight, h j hj]

/-- The lists of a cache; nothing is said of the list that a loose record is in. -/
structure Lists (c : Arc) (seqs : Tier × Bool → List Slot) (loose : Option Slot) : Prop where
  consistent : c.store.Consistent
  family : Chain.Family c.chains c.store.records seqs
  mem : ∀ k i, some i ≠ loose → (i ∈ seqs k ↔ ∃ r, c.store.get? i = some r ∧ r.place = k)
  bytes : ∀ k, (c.list k.1 k.2).bytes = held c.account.overhead c.store.records (seqs k)

/-- What relinking a record leaves alone. -/
structure Relisted (a b : Arc) : Prop where
  same : a.store.records.Same bare b.store.records
  index : b.store.index = a.store.index
  account : b.account = a.account
  target : b.target = a.target
  ghostHit : b.ghostHit = a.ghostHit

theorem Relisted.trans {a b c : Arc} (h : Relisted a b) (k : Relisted b c) : Relisted a c :=
  ⟨h.same.trans k.same, k.index.trans h.index, k.account.trans h.account, k.target.trans h.target, k.ghostHit.trans h.ghostHit⟩

theorem lists_empty (capacity overhead : Nat) : (empty capacity overhead).Lists (fun _ => []) none where
  consistent := Store.consistent_empty
  family := by
    refine ⟨fun k => ?_, fun k l i hi => nomatch hi⟩
    have e : (empty capacity overhead).chains k = .empty := by
      obtain ⟨tier, ghost⟩ := k
      cases tier <;> cases ghost <;> rfl
    rw [e]
    exact Chain.represents_empty _
  mem k i _ := by simp [empty, Store.empty, Store.get?, Arena.get?_empty]
  bytes k := by
    obtain ⟨tier, ghost⟩ := k
    cases tier <;> cases ghost <;> rfl

namespace Lists
variable {c : Arc} {seqs : Tier × Bool → List Slot} {k : Tier × Bool} {i : Slot} {r : Record Tier}

theorem mem_iff (L : c.Lists seqs none) (k : Tier × Bool) (i : Slot) :
    i ∈ seqs k ↔ ∃ r, c.store.get? i = some r ∧ r.place = k :=
  L.mem k i (Option.some_ne_none i)

theorem loosen (L : c.Lists seqs none) (loose : Option Slot) : c.Lists seqs loose :=
  ⟨L.consistent, L.family, fun k i _ => L.mem_iff k i, L.bytes⟩

/-- A record is no longer loose once it is where it belongs. -/
theorem fasten (L : c.Lists seqs (some i))
    (place : ∀ k, i ∈ seqs k ↔ ∃ r, c.store.get? i = some r ∧ r.place = k) : c.Lists seqs none := by
  refine ⟨L.consistent, L.family, fun k j _ => ?_, L.bytes⟩
  by_cases e : j = i
  · subst e
    exact place k
  · exact L.mem k j fun same => e (Option.some.inj same)

theorem fasten_at {l : List Slot} (L : c.Lists (Function.update seqs k l) (some i))
    (out : ∀ m, m ≠ k → i ∉ seqs m) (hi : i ∈ l) (hr : c.store.get? i = some r) (place : r.place = k) :
    c.Lists (Function.update seqs k l) none := by
  refine L.fasten fun m => ?_
  have found : (∃ u, c.store.get? i = some u ∧ u.place = m) ↔ m = k := by
    rw [hr]
    constructor
    · intro found
      obtain ⟨u, hu, home⟩ := found
      cases hu
      exact home.symm.trans place
    · intro e
      exact ⟨r, rfl, place.trans e.symm⟩
  rw [found, Function.update_apply]
  by_cases e : m = k
  · rw [if_pos e]
    exact iff_of_true hi e
  · rw [if_neg e]
    exact iff_of_false (out m e) e

theorem restore {loose : Option Slot} (L : c.Lists seqs loose) {store : Store Tier}
    (account : Account) (consistent : store.Consistent)
    (overhead : account.overhead = c.account.overhead)
    (listed : ∀ k, ∀ j ∈ seqs k, (store.get? j).map (fun r => (r.links, r.size)) =
      (c.store.get? j).map fun r => (r.links, r.size))
    (other : ∀ j, some j ≠ loose → (store.get? j).map Record.place = (c.store.get? j).map Record.place) :
    Lists { c with store, account } seqs loose where
  consistent := consistent
  family := by
    have e : ({ c with store, account } : Arc).chains = c.chains := funext fun k => by
      rw [chains, list_mk]
      rfl
    rw [e]
    refine L.family.congr fun k j hj => ?_
    have e := congrArg (Option.map Prod.fst) (listed k j hj)
    rw [Option.map_map, Option.map_map] at e
    exact e
  mem m j hj := by
    rw [L.mem m j hj, ← Option.map_eq_some_iff, ← Option.map_eq_some_iff, ← other j hj]
  bytes m := by
    rw [list_mk, L.bytes m]
    show _ = held account.overhead _ _
    rw [overhead]
    refine (held_congr fun j hj => ?_).symm
    have e := congrArg (Option.map Prod.snd) (listed m j hj)
    rw [Option.map_map, Option.map_map] at e
    exact e

theorem relist {loose : Option Slot} (L : c.Lists seqs loose) {l : SizedChain}
    {records : Arena (Record Tier)} {touched s : List Slot}
    (rel : Arena.Relinked touched c.store.records records)
    (family : Chain.Family (Function.update c.chains k l.order) records (Function.update seqs k s))
    (bytes : l.bytes = held c.account.overhead c.store.records s)
    (perm : ∀ j, some j ≠ loose → (j ∈ s ↔ j ∈ seqs k)) :
    Lists ({ c with store := { c.store with records } }.withList l k.1 k.2)
        (Function.update seqs k s) loose ∧
      Relisted c ({ c with store := { c.store with records } }.withList l k.1 k.2) := by
  have lists : ∀ m, ({ c with store := { c.store with records } }.withList l k.1 k.2).list m.1 m.2 =
      if m = k then l else c.list m.1 m.2 := fun m => by
    rw [list_withList, list_mk]
  have sizes : ∀ s, held c.account.overhead records s = held c.account.overhead c.store.records s :=
    fun s => held_congr fun j _ => rel.same.of_comp Record.size (fun _ => rfl) j
  constructor
  · constructor
    · rw [store_withList]
      exact L.consistent.relinked rel
    · rw [store_withList]
      have e : ({ c with store := { c.store with records } }.withList l k.1 k.2).chains =
          Function.update c.chains k l.order := by
        funext m
        rw [chains, lists, Function.update_apply]
        split <;> rfl
      rw [e]
      exact family
    · intro m j hj
      rw [store_withList]
      have places : (records.get? j).map Record.place = (c.store.get? j).map Record.place :=
        rel.same.of_comp Record.place (fun _ => rfl) j
      rw [← Option.map_eq_some_iff, show Store.get? { c.store with records } j = records.get? j from rfl,
        places, Option.map_eq_some_iff, ← L.mem m j hj, Function.update_apply]
      split
      · rename_i e
        rw [e]
        exact perm j hj
      · rfl
    · intro m
      rw [lists, store_withList, account_withList, Function.update_apply]
      split
      · exact bytes.trans (sizes s).symm
      · exact (L.bytes m).trans (sizes (seqs m)).symm
  · refine ⟨?_, ?_, account_withList .., target_withList .., ghostHit_withList ..⟩
    · rw [store_withList]
      exact rel.same
    · rw [store_withList]

theorem retag (L : c.Lists seqs none) (hr : c.store.get? i = some r) (req : Request) :
    Lists { c with store := c.store.modify i fun r =>
      { r.touch req c.account.now with tag := .frequent } } seqs (some i) ∧
      (c.store.modify i fun r => { r.touch req c.account.now with tag := .frequent }).get? i =
        some { r.touch req c.account.now with tag := .frequent } := by
  have get := Store.get?_modify c.store i (f := fun r =>
    { r.touch req c.account.now with tag := .frequent })
  have consistent := L.consistent.modify i (f := fun r =>
    { r.touch req c.account.now with tag := .frequent }) fun _ _ => ⟨rfl, rfl⟩
  have linked := Arena.same_modify (f := fun r : Record Tier => (r.links, r.size))
    c.store.records i (g := fun r => { r.touch req c.account.now with tag := .frequent }) fun _ _ => rfl
  constructor
  · apply (L.loosen (some i)).restore c.account consistent rfl fun k j _ => linked j
    intro j hj
    rw [get, if_neg fun e => hj (congrArg some e.symm)]
  · rw [get, if_pos rfl, hr]
    rfl

theorem settles_detach (L : c.Lists seqs (some i)) (hi : i ∈ seqs k) (hr : c.store.get? i = some r) :
    Settles t (c.detach k.1 k.2 i (r.size + c.account.overhead)) fun c' =>
      c'.Lists (Function.update seqs k ((seqs k).erase i)) (some i) ∧ Relisted c c' ∧
      ∀ m, i ∉ Function.update seqs k ((seqs k).erase i) m := by
  obtain ⟨order, records, e, rel, family⟩ := L.family.unlink hi
  have split : held c.account.overhead c.store.records (seqs k) =
      (r.size + c.account.overhead) + held c.account.overhead c.store.records ((seqs k).erase i) := by
    rw [held, held, ← List.sum_map_erase _ hi, Arena.weight_of_get? hr]
  have bytes := L.bytes k
  unfold detach SizedChain.detach
  rw [show (c.list k.1 k.2).order.unlink c.store.records i = _ from e]
  refine settles_bind (show Settles t _ fun p : SizedChain × Arena (Record Tier) =>
    p = (⟨order, held c.account.overhead c.store.records ((seqs k).erase i)⟩, records) from ?_) ?_
  · refine settles_ok_bind (settles_bind (settles_subWord _ _) fun n hn => ?_)
    have : n = held c.account.overhead c.store.records ((seqs k).erase i) := by omega
    exact settles_pure (by rw [this])
  · rintro _ rfl
    have nodup := (L.family.represents k).nodup
    have moved := L.relist (l := ⟨order, _⟩) rel family rfl fun j hj => by
      have hji : j ≠ i := fun same => hj (congrArg some same)
      exact List.mem_erase_of_ne hji
    refine settles_pure ⟨moved.1, moved.2, fun m => ?_⟩
    rw [Function.update_apply]
    split
    · exact nodup.not_mem_erase
    · rename_i other
      exact L.family.own hi m other

theorem settles_attach (L : c.Lists seqs (some i)) (out : ∀ m, i ∉ seqs m)
    (hr : c.store.get? i = some r) :
    Settles t (c.attach k.1 k.2 i (r.size + c.account.overhead)) fun c' =>
      c'.Lists (Function.update seqs k (i :: seqs k)) (some i) ∧ Relisted c c' := by
  have present : c.store.records.contains i = true := by
    rw [Arena.contains, show c.store.records.get? i = _ from hr]
    rfl
  have family := L.family.pushFront (k := k) out present
  have rel := Chain.relinked_pushFront (i := i) (L.family.represents k)
  have bytes := L.bytes k
  have more : held c.account.overhead c.store.records (i :: seqs k) =
      (r.size + c.account.overhead) + held c.account.overhead c.store.records (seqs k) := by
    rw [held, List.map_cons, List.sum_cons, Arena.weight_of_get? hr]
    rfl
  unfold attach SizedChain.attach
  rw [show (c.list k.1 k.2).order = c.chains k from rfl]
  generalize (c.chains k).pushFront c.store.records i = placed at family rel ⊢
  obtain ⟨order, records⟩ := placed
  refine settles_bind (show Settles t _ fun p : SizedChain × Arena (Record Tier) =>
    p = (⟨order, held c.account.overhead c.store.records (i :: seqs k)⟩, records) from ?_) ?_
  · refine settles_bind (settles_addWord _ _) fun n hn => ?_
    have : n = held c.account.overhead c.store.records (i :: seqs k) := by omega
    exact settles_pure (by rw [this])
  · rintro _ rfl
    refine settles_pure (L.relist (l := ⟨order, _⟩) rel family rfl fun j hj => ?_)
    have hji : j ≠ i := fun same => hj (congrArg some same)
    simp [hji]

theorem settles_move {m : Tier × Bool} (L : c.Lists seqs (some i)) (hi : i ∈ seqs k)
    (hr : c.store.get? i = some r) :
    Settles t (c.detach k.1 k.2 i (r.size + c.account.overhead) >>= fun d =>
      d.attach m.1 m.2 i (r.size + c.account.overhead)) fun d => Relisted c d ∧
        ∃ others, d.Lists (Function.update others m (i :: others m)) (some i) ∧ ∀ n, i ∉ others n := by
  refine settles_bind (L.settles_detach hi hr) fun d detached => ?_
  obtain ⟨L', moved, out⟩ := detached
  obtain ⟨u, hu, hbare⟩ := moved.same.get? hr
  obtain ⟨l, rfl⟩ := Record.exists_links_of_bare hbare
  have attached := L'.settles_attach (t := t) (k := m) out hu
  rw [moved.account] at attached
  refine attached.mono fun e placed => ?_
  exact ⟨moved.trans placed.2, _, placed.1, out⟩

end Lists

/-- No object is both cached and a ghost. -/
def Exclusive (s : Store Tier) : Prop :=
  ∀ i j r u, s.get? i = some r → s.get? j = some u → r.ghost = false → u.ghost = true → r.id ≠ u.id

theorem Exclusive.of_sub {s s' : Store Tier} (h : Exclusive s)
    (sub : ∀ j v, s'.get? j = some v → ∃ u, s.get? j = some u ∧ u.id = v.id ∧ u.ghost = v.ghost) :
    Exclusive s' := by
  intro i j r u hr hu live ghost
  obtain ⟨r', hr', hid, hghost⟩ := sub i r hr
  obtain ⟨u', hu', hid', hghost'⟩ := sub j u hu
  rw [← hid, ← hid']
  exact h i j r' u' hr' hu' (hghost.trans live) (hghost'.trans ghost)

theorem Exclusive.demoted {s s' : Store Tier} (h : Exclusive s) (consistent : s.Consistent) {i : Slot}
    {r : Record Tier} (hr : s.get? i = some r) (live : r.ghost = false)
    (self : s'.get? i = some { r with ghost := true }) (other : ∀ j, j ≠ i → s'.get? j = s.get? j) :
    Exclusive s' := by
  intro j m w x hw hx alive ghost
  have hj : j ≠ i := by
    intro e
    rw [e, self] at hw
    cases hw
    cases alive
  rw [other j hj] at hw
  by_cases hm : m = i
  · rw [hm, self] at hx
    cases hx
    exact fun hid => hj (consistent.live_unique hw hr alive live hid)
  · rw [other m hm] at hx
    exact h j m w x hw hx alive ghost

theorem Exclusive.admitted {s s' : Store Tier} (h : Exclusive s) {req : Request} {now : Int} {tier : Tier}
    {i : Slot} (admits : s.Admits req now tier i s')
    (absent : ∀ j r, s.get? j = some r → r.id ≠ req.id) : Exclusive s' := by
  obtain ⟨expiry, hr⟩ := admits.record
  intro j m w x hw hx live ghost
  have hm : m ≠ i := by
    intro e
    rw [e, hr] at hx
    cases hx
    cases ghost
  rw [admits.other m hm] at hx
  by_cases hj : j = i
  · rw [hj, hr] at hw
    cases hw
    exact (absent m x hx).symm
  · rw [admits.other j hj] at hw
    exact h j m w x hw hx live ghost

structure Sound (c : Arc) : Prop where
  lists : ∃ seqs, c.Lists seqs none
  balanced : c.account.Balanced c.store
  within : c.account.occupied ≤ c.account.capacity
  exclusive : Exclusive c.store

theorem sound_empty (capacity overhead : Nat) : (empty capacity overhead).Sound where
  lists := ⟨_, lists_empty capacity overhead⟩
  balanced := Account.balanced_empty capacity overhead
  within := Nat.zero_le _
  exclusive i j r u hr := by simp [empty, Store.empty, Store.get?, Arena.get?_empty] at hr

def absent (c : Arc) (id : Nat) : Prop := ∀ i r, c.store.get? i = some r → r.id ≠ id

namespace Sound
variable {c : Arc} (h : c.Sound)
include h

theorem consistent : c.store.Consistent := by
  obtain ⟨seqs, L⟩ := h.lists
  exact L.consistent

theorem recount (account : Account) (capacity : account.capacity = c.account.capacity)
    (overhead : account.overhead = c.account.overhead)
    (occupied : account.occupied = c.account.occupied)
    (objects : account.objects = c.account.objects) (target : Float) (ghostHit : Option Tier) :
    Sound { c with account, target, ghostHit } where
  lists := by
    obtain ⟨seqs, L⟩ := h.lists
    refine ⟨seqs, ?_⟩
    have := L.restore account L.consistent overhead (fun _ _ _ => rfl) fun _ _ => rfl
    exact ⟨this.consistent, this.family, this.mem, this.bytes⟩
  balanced := ⟨objects.trans h.balanced.objects, by
    show account.occupied = c.store.records.total (Record.liveBytes account.overhead)
    rw [occupied, overhead]
    exact h.balanced.occupied, by
    show IsWord account.occupied
    rw [occupied]
    exact h.balanced.word⟩
  within := by
    show account.occupied ≤ account.capacity
    rw [occupied, capacity]
    exact h.within
  exclusive := h.exclusive

/-- The cached objects of both sides take up the occupied bytes. -/
theorem occupied_eq : c.t1.bytes + c.t2.bytes = c.account.occupied := by
  obtain ⟨seqs, L⟩ := h.lists
  have live : ∀ tier, ∀ i ∈ seqs (tier, false), ∃ r, c.store.get? i = some r ∧ r.ghost = false := by
    intro tier i hi
    obtain ⟨r, hr, place⟩ := (L.mem_iff _ i).mp hi
    exact ⟨r, hr, congrArg Prod.snd place⟩
  have side : ∀ tier, held c.account.overhead c.store.records (seqs (tier, false)) =
      ((seqs (tier, false)).map
        (c.store.records.weight (Record.liveBytes c.account.overhead))).sum := by
    intro tier
    refine congrArg List.sum (List.map_congr_left fun i hi => ?_)
    obtain ⟨r, hr, ghost⟩ := live tier i hi
    rw [Arena.weight_of_get? hr, Arena.weight_of_get? hr, Record.liveBytes, ghost]
    rfl
  have nodup : (seqs (.recent, false) ++ seqs (.frequent, false)).Nodup := by
    refine List.nodup_append.mpr ⟨(L.family.represents _).nodup, (L.family.represents _).nodup, ?_⟩
    rintro i hi j hj rfl
    cases L.family.disjoint _ _ i hi hj
  have t1 : c.t1.bytes = _ := L.bytes (.recent, false)
  have t2 : c.t2.bytes = _ := L.bytes (.frequent, false)
  rw [t1, t2, side, side, ← List.sum_append, ← List.map_append, h.balanced.occupied]
  refine Arena.sum_eq_total nodup fun i r hr some => ?_
  have ghost : r.ghost = false := by
    by_contra e
    simp [Record.liveBytes, e] at some
  have mem := (L.mem_iff (r.tag, false) i).mpr ⟨r, hr, by rw [Record.place, ghost]⟩
  rw [List.mem_append]
  cases tag : r.tag with
  | recent => exact .inl (tag ▸ mem)
  | frequent => exact .inr (tag ▸ mem)

theorem settles_drop {i : Slot} {r : Record Tier} (hr : c.store.get? i = some r) :
    Settles t (c.drop i) fun c' => c'.Sound ∧
      c'.account = (if r.ghost then c.account else c.account.released r.size) ∧
      ∀ j, (c'.store.get? j).map bare = if i = j then none else (c.store.get? j).map bare := by
  obtain ⟨seqs, L⟩ := h.lists
  unfold drop
  rw [hr]
  refine settles_bind (Account.settles_footprint c.account r.size) ?_
  rintro bytes ⟨rfl, -⟩
  have hi : i ∈ seqs r.place := (L.mem_iff _ i).mpr ⟨r, hr, rfl⟩
  refine settles_bind ((L.loosen (some i)).settles_detach hi hr) ?_
  rintro d ⟨L', shifted, out⟩
  obtain ⟨u, hu, hbare⟩ := shifted.same.get? hr
  obtain ⟨l, rfl⟩ := Record.exists_links_of_bare hbare
  have balanced : c.account.Balanced d.store := h.balanced.keep fun j =>
    Store.liveSize?_same (s := c.store) (shifted.same.of_comp (fun r => (r.size, r.ghost)) fun _ => rfl) j
  obtain ⟨kept, get⟩ := L'.consistent.without hu
  have off := L'.consistent.liveSize?_without hu
  rw [L'.consistent.delete_eq]
  refine settles_ok_bind ?_
  generalize d.store.without i = store at kept get off ⊢
  have get' : ∀ j, (store.get? j).map bare = if i = j then none else (c.store.get? j).map bare := by
    intro j
    rw [get]
    split
    · rfl
    · exact shifted.same j
  have exclusive : Exclusive store := h.exclusive.of_sub fun j v hv => (Store.exists_of_dropped get' hv).2
  have lists : ∀ account : Account, account.overhead = c.account.overhead →
      ∃ seqs, Lists { d with store, account } seqs none := by
    intro account overhead
    have same : ∀ j, j ≠ i → store.get? j = d.store.get? j := fun j hj => by
      rw [get, if_neg (Ne.symm hj)]
    have L'' := L'.restore account kept (overhead.trans (by rw [shifted.account]))
      (fun k j hj => by rw [same j fun e => out k (e ▸ hj)])
      fun j hj => by rw [same j fun e => hj (congrArg some e)]
    refine ⟨_, L''.fasten fun k => iff_of_false (out k) ?_⟩
    rintro ⟨v, hv, -⟩
    have none := get i
    rw [if_pos rfl] at none
    rw [show store.get? i = some v from hv] at none
    cases none
  rw [shifted.account]
  cases ghost : r.ghost with
  | true =>
    have none := Store.liveSize?_of_ghost hu ghost
    refine settles_pure ⟨⟨lists _ rfl, balanced.keep fun j => ?_, h.within, exclusive⟩, rfl, get'⟩
    rw [off]
    split
    · rename_i e
      rw [← e, none]
    · rfl
  | false =>
    have some := Store.liveSize?_of_live hu ghost
    refine settles_bind (balanced.settles_release some) ?_
    rintro _ rfl
    refine settles_pure ⟨⟨lists _ rfl, balanced.released some off, ?_, exclusive⟩, rfl, get'⟩
    exact Nat.le_trans (Nat.sub_le _ _) h.within

theorem findGhost?_of_live {i : Slot} {r : Record Tier} (hr : c.store.get? i = some r)
    (live : r.ghost = false) : c.store.findGhost? r.id = none := by
  rw [Option.eq_none_iff_forall_ne_some]
  intro j hj
  obtain ⟨u, hu, hid, ghost⟩ := (h.consistent.findGhost?_eq_some_iff r.id j).mp hj
  exact h.exclusive i j r u hr hu live ghost hid.symm

theorem settles_demoteLast (tier : Tier) :
    Settles t (c.demoteLast tier) fun c' => c'.Sound ∧ c.account.SameTerms c'.account ∧
      (∀ id, c.absent id → c'.absent id) ∧
      (0 < (c.list tier false).bytes → c'.account.objects < c.account.objects) := by
  obtain ⟨seqs, L⟩ := h.lists
  have rep := L.family.represents (tier, false)
  unfold demoteLast
  cases back : (c.list tier false).order.back with
  | none =>
    refine settles_pure ⟨h, .refl _, fun _ a => a, fun some => ?_⟩
    have nil : seqs (tier, false) = [] := List.getLast?_eq_none_iff.mp (rep.back_eq ▸ back)
    have bytes := L.bytes (tier, false)
    rw [nil] at bytes
    exact absurd some (by rw [bytes]; exact Nat.lt_irrefl 0)
  | some i =>
    have hi : i ∈ seqs (tier, false) := List.mem_of_getLast? (rep.back_eq ▸ back)
    obtain ⟨r, hr, place⟩ := (L.mem_iff _ i).mp hi
    have live : r.ghost = false := congrArg Prod.snd place
    have side : r.tag = tier := congrArg Prod.fst place
    have none := h.findGhost?_of_live hr live
    simp only [hr, none]
    refine settles_ok_bind (settles_bind (Account.settles_footprint c.account r.size) ?_)
    rintro bytes ⟨rfl, -⟩
    rw [← bind_assoc]
    refine settles_bind ((L.loosen (some i)).settles_move (k := (tier, false)) (m := (tier, true)) hi hr)
      fun d done => ?_
    obtain ⟨moved, others, L', out⟩ := done
    obtain ⟨u, hu, hbare⟩ := moved.same.get? hr
    obtain ⟨l, rfl⟩ := Record.exists_links_of_bare hbare
    have account : d.account = c.account := moved.account
    have balanced : c.account.Balanced d.store := h.balanced.keep fun j =>
      Store.liveSize?_same (s := c.store) (moved.same.of_comp (fun r => (r.size, r.ghost)) fun _ => rfl) j
    have some := Store.liveSize?_of_live hu live
    have off := L'.consistent.liveSize?_demoted hu live
    obtain ⟨kept, self, other⟩ := L'.consistent.demoted hu live
    have lone : d.store.findGhost? r.id = .none := by
      rw [Store.findGhost?, moved.index]
      exact none
    have other : ∀ j, j ≠ i → (d.store.demoted i).get? j = d.store.get? j := fun j hj => by
      rw [other j hj, lone, if_neg (Option.some_ne_none j).symm]
    rw [L'.consistent.demote_eq hu live]
    refine settles_ok_bind ?_
    generalize d.store.demoted i = store at kept self other off ⊢
    rw [account]
    refine settles_bind (balanced.settles_release some) fun released e => ?_
    subst e
    have restored := L'.restore (c.account.released r.size) kept (by rw [account]; rfl)
      (fun k j hj => by
        by_cases same : j = i
        · rw [same, self, show d.store.get? i = _ from hu]
          rfl
        · rw [other j same])
      fun j hj => by rw [other j fun same => hj (congrArg Option.some same)]
    have fastened := restored.fasten_at (fun m _ => out m) List.mem_cons_self self
      (by rw [Record.place, side])
    have exclusive := (h.exclusive.of_sub fun j v hv => Store.exists_of_same_bare moved.same hv).demoted
      L'.consistent hu live self other
    have covers := h.balanced.covers (Store.liveSize?_of_live hr live)
    refine settles_pure ⟨⟨⟨_, fastened⟩, balanced.released some off, ?_, exclusive⟩,
      Account.sameTerms_released _ _, fun id none j w hw => ?_, fun _ => ?_⟩
    · exact Nat.le_trans (Nat.sub_le _ _) h.within
    · by_cases hj : j = i
      · rw [hj, self] at hw
        cases hw
        exact none i r hr
      · rw [other j hj] at hw
        obtain ⟨x, hx, same, -⟩ := Store.exists_of_same_bare moved.same hw
        rw [← same]
        exact none j x hx
    · show c.account.objects - 1 < c.account.objects
      omega

end Sound

/-- What a step of replacement does. -/
structure Stepped (a b : Arc) : Prop where
  sound : b.Sound
  terms : a.account.SameTerms b.account
  absent : ∀ id, a.absent id → b.absent id
  fewer : 0 < a.account.occupied → b.account.objects < a.account.objects

structure Found (c : Arc) (req : Request) (update : Bool) (p : Outcome × Arc) : Prop where
  sound : p.2.Sound
  terms : c.account.SameTerms p.2.account
  cached : update = true → p.1 = .hit → p.2.store.caches req.id = true
  missed : update = true → p.1 ≠ .hit → p.2.absent req.id

namespace Sound
variable {c : Arc} (h : c.Sound)
include h

theorem replaced_pos (some : 0 < c.account.occupied) : 0 < (c.list c.replaced false).bytes := by
  have sum := h.occupied_eq
  unfold replaced
  dsimp only
  split
  · rename_i chosen
    show 0 < c.t1.bytes
    by_contra none
    simp only [Bool.or_eq_true, Bool.and_eq_true, decide_eq_true_eq] at chosen
    rcases chosen with ⟨pos, -⟩ | zero
    · exact none pos
    · omega
  · rename_i chosen
    show 0 < c.t2.bytes
    simp only [Bool.or_eq_true, decide_eq_true_eq, not_or] at chosen
    omega

theorem settles_replace : Settles t c.replace (Stepped c) := by
  refine (h.settles_demoteLast c.replaced).mono fun c' done => ?_
  obtain ⟨sound, terms, absent, fewer⟩ := done
  exact ⟨sound, terms, absent, fun some => fewer (h.replaced_pos some)⟩

omit h in
theorem absent_of_dropped {c' : Arc} {i : Slot}
    (get : ∀ j, (c'.store.get? j).map bare = if i = j then none else (c.store.get? j).map bare)
    (id : Nat) (absent : c.absent id) : c'.absent id := by
  intro j v hv
  obtain ⟨-, u, hu, same, -⟩ := Store.exists_of_dropped get hv
  rw [← same]
  exact absent j u hu

theorem settles_dropLastGhost (tier : Tier) :
    Settles t (c.dropLastGhost tier) fun c' => c'.Sound ∧ c'.account = c.account ∧
      ∀ id, c.absent id → c'.absent id := by
  obtain ⟨seqs, L⟩ := h.lists
  unfold dropLastGhost
  cases back : (c.list tier true).order.back with
  | none => exact settles_pure ⟨h, rfl, fun _ a => a⟩
  | some i =>
    have hi : i ∈ seqs (tier, true) :=
      List.mem_of_getLast? ((L.family.represents (tier, true)).back_eq ▸ back)
    obtain ⟨r, hr, place⟩ := (L.mem_iff _ i).mp hi
    refine (h.settles_drop hr).mono fun c' dropped => ?_
    obtain ⟨sound, account, get⟩ := dropped
    have ghost : r.ghost = true := congrArg Prod.snd place
    rw [if_pos ghost] at account
    exact ⟨sound, account, absent_of_dropped get⟩

theorem settles_step (size : Nat) : Settles t (c.step size) (Stepped c) := by
  have after : ∀ tier, Settles t (do
      let c ← c.dropLastGhost tier
      c.replace) (Stepped c) := by
    intro tier
    refine settles_bind (h.settles_dropLastGhost tier) fun d dropped => ?_
    obtain ⟨sound, account, absent⟩ := dropped
    refine sound.settles_replace.mono fun e stepped => ?_
    refine ⟨stepped.sound, account ▸ stepped.terms, fun id a => stepped.absent id (absent id a), ?_⟩
    rw [← account]
    exact stepped.fewer
  unfold step
  split
  · exact h.settles_replace
  · refine settles_bind (show Settles t _ fun _ => True from ?_) fun full _ => ?_
    · refine settles_bind (settles_addWord _ _) fun known _ => ?_
      refine settles_bind (Account.settles_footprint _ _) fun bytes _ => ?_
      refine settles_bind (settles_addWord _ _) fun wanted _ => ?_
      exact settles_pure trivial
    · split
      · split
        · exact after .recent
        · split
          · rename_i i back
            obtain ⟨seqs, L⟩ := h.lists
            have hi : i ∈ seqs (.recent, false) :=
              List.mem_of_getLast? ((L.family.represents (.recent, false)).back_eq ▸ back)
            obtain ⟨r, hr, place⟩ := (L.mem_iff _ i).mp hi
            have live : r.ghost = false := congrArg Prod.snd place
            have covers := h.balanced.covers (Store.liveSize?_of_live hr live)
            refine (h.settles_drop hr).mono fun d dropped => ?_
            obtain ⟨sound, account, get⟩ := dropped
            rw [live, if_neg Bool.false_ne_true] at account
            refine ⟨sound, ?_, absent_of_dropped get, fun _ => ?_⟩
            · rw [account]
              exact Account.sameTerms_released _ _
            · rw [account]
              show c.account.objects - 1 < c.account.objects
              omega
          · exact h.settles_replace
      · refine settles_bind (show Settles t _ fun _ => True from ?_) fun full _ => ?_
        · refine settles_bind (settles_addWord _ _) fun _ _ => ?_
          refine settles_bind (settles_addWord _ _) fun _ _ => ?_
          refine settles_bind (settles_addWord _ _) fun _ _ => ?_
          refine settles_bind (settles_mulWord _ _) fun _ _ => ?_
          exact settles_pure trivial
        · split
          · exact after .frequent
          · exact h.settles_replace

/-- Records change, but neither what they count for nor whose they are. -/
theorem of_same {d : Arc} (lists : ∃ seqs, d.Lists seqs none)
    (same : c.store.records.Same (fun r => (r.id, r.size, r.ghost)) d.store.records)
    (account : d.account = c.account) : d.Sound where
  lists := lists
  balanced := by
    rw [account]
    exact h.balanced.keep fun j =>
      Store.liveSize?_same (s := c.store) (same.of_comp (fun e => e.2) fun _ => rfl) j
  within := by
    rw [account]
    exact h.within
  exclusive := h.exclusive.of_sub fun j v hv => by
    obtain ⟨u, hu, e⟩ := same.symm.get? hv
    simp only [Prod.mk.injEq] at e
    exact ⟨u, hu, e.1, e.2.2⟩

theorem settles_promote {i : Slot} {r : Record Tier} (req : Request) (hr : c.store.get? i = some r)
    (live : r.ghost = false) :
    Settles t (c.promote i r req) fun c' => c'.Sound ∧ c'.account = c.account ∧
      ∀ id, c'.store.caches id = c.store.caches id := by
  obtain ⟨seqs, L⟩ := h.lists
  have hi : i ∈ seqs (r.tag, false) := (L.mem_iff _ i).mpr ⟨r, hr, by rw [Record.place, live]⟩
  unfold promote
  refine settles_bind (Account.settles_footprint c.account r.size) ?_
  rintro bytes ⟨rfl, -⟩
  obtain ⟨L', hi'⟩ := L.retag hr req
  have same := Arena.same_modify (f := fun r : Record Tier => (r.id, r.size, r.ghost))
    c.store.records i (g := fun r => { r.touch req c.account.now with tag := .frequent }) fun _ _ => rfl
  have caches : ∀ id, (c.store.modify i fun r =>
      { r.touch req c.account.now with tag := .frequent }).caches id = c.store.caches id := fun _ => rfl
  change Arena.Same _ _ (c.store.modify i fun r =>
    { r.touch req c.account.now with tag := .frequent }).records at same
  dsimp only
  generalize (c.store.modify i fun r => { r.touch req c.account.now with tag := .frequent }) = store
    at L' hi' same caches ⊢
  -- Whichever list the record comes from, it ends up in the one of its new side.
  have placed : ∀ {d : Arc} {l : List Slot} {seqs' : Tier × Bool → List Slot},
      d.Lists (Function.update seqs' (.frequent, false) (i :: l)) (some i) →
      (∀ m, m ≠ (.frequent, false) → i ∉ seqs' m) →
      Relisted { c with store } d → d.Sound ∧ d.account = c.account ∧
        ∀ id, d.store.caches id = c.store.caches id := by
    intro d l seqs' lists out shifted
    obtain ⟨u, hu, hbare⟩ := shifted.same.get? hi'
    obtain ⟨links, rfl⟩ := Record.exists_links_of_bare hbare
    have place : (Tier.frequent, r.ghost) = (.frequent, false) := by rw [live]
    have fastened := lists.fasten_at out List.mem_cons_self hu place
    refine ⟨h.of_same ⟨_, fastened⟩ (same.trans ?_) shifted.account, shifted.account, fun id => ?_⟩
    · exact shifted.same.of_comp (fun r => (r.id, r.size, r.ghost)) fun _ => rfl
    · rw [← caches id, Store.caches, Store.caches, Store.find?, Store.find?, shifted.index]
  cases tag : r.tag with
  | recent =>
    rw [tag] at hi
    have moved := L'.settles_move (t := t) (m := (.frequent, false)) hi hi'
    refine moved.mono fun e done => ?_
    obtain ⟨shifted, others, lists, out⟩ := done
    exact placed lists (fun m _ => out m) shifted
  | frequent =>
    rw [tag] at hi
    obtain ⟨order, records, e, rel, family⟩ := L'.family.moveToFront hi
    refine settles_bind (show Settles t _ fun p => p = (order, records) from ?_) ?_
    · show Settles t (c.t2.order.moveToFront store.records i) _
      rw [show c.t2.order.moveToFront store.records i = _ from e]
      exact rfl
    · rintro _ rfl
      have bytes : c.t2.bytes = held c.account.overhead store.records
          (i :: (seqs (.frequent, false)).erase i) := by
        have old : c.t2.bytes = _ := L'.bytes (.frequent, false)
        rw [old, held, held, List.map_cons, List.sum_cons, List.sum_map_erase _ hi]
      have moved := L'.relist (l := ⟨order, c.t2.bytes⟩) rel family bytes fun j hj => by
        have hji : j ≠ i := fun same => hj (congrArg some same)
        simp [hji, List.mem_erase_of_ne hji]
      refine settles_pure (placed moved.1 (fun m hm => ?_) moved.2)
      exact L'.family.own hi m hm

omit h in
theorem absent_of_only {c' : Arc} {i : Slot} {id : Nat}
    (get : ∀ j, (c'.store.get? j).map bare = if i = j then none else (c.store.get? j).map bare)
    (only : ∀ j u, c.store.get? j = some u → u.id = id → j = i) : c'.absent id := by
  intro j v hv same
  obtain ⟨apart, u, hu, hid, -⟩ := Store.exists_of_dropped get hv
  exact apart (only j u hu (hid.trans same)).symm

theorem only_of_live {i : Slot} {r : Record Tier} (hr : c.store.get? i = some r)
    (live : r.ghost = false) (j : Slot) (u : Record Tier) (hu : c.store.get? j = some u)
    (same : u.id = r.id) : j = i := by
  cases ghost : u.ghost with
  | false => exact h.consistent.live_unique hu hr ghost live same
  | true => exact absurd same.symm (h.exclusive i j r u hr hu live ghost)

theorem settles_checkLive {i : Slot} {r : Record Tier} (req : Request) (update : Bool)
    (hr : c.store.get? i = some r) (hid : r.id = req.id) (live : r.ghost = false) :
    Settles t (c.checkLive i r req update) (Found c req update) := by
  unfold checkLive
  split
  · split
    · refine settles_bind (h.settles_drop hr) fun d done => ?_
      obtain ⟨dropped, account, get⟩ := done
      refine settles_bind (Account.settles_recordExpired d.account) fun counted expired => ?_
      obtain ⟨n, rfl⟩ := expired
      rw [live, if_neg Bool.false_ne_true] at account
      refine settles_pure ⟨dropped.recount { d.account with expired := n } rfl rfl rfl rfl d.target
        d.ghostHit, ?_, fun _ => Outcome.noConfusion, fun _ _ => ?_⟩
      · rw [account]
        exact ⟨rfl, rfl, rfl, rfl⟩
      · exact absent_of_only (c := c) get fun j u hu same =>
          h.only_of_live hr live j u hu (same.trans hid.symm)
    · rename_i readOnly
      exact settles_pure ⟨h, .refl _, fun u => absurd u readOnly, fun u => absurd u readOnly⟩
  · have cached : c.store.caches req.id = true := (h.consistent.caches_iff req.id).mpr ⟨i, r, hr, hid, live⟩
    split
    · refine settles_bind (h.settles_promote req hr live) fun d done => ?_
      obtain ⟨promoted, account, caches⟩ := done
      refine settles_pure ⟨promoted, ?_, fun _ _ => ?_, fun _ no => absurd rfl no⟩
      · rw [account]
        exact .refl _
      · rw [caches, cached]
    · exact settles_pure ⟨h, .refl _, fun _ _ => cached, fun _ no => absurd rfl no⟩

theorem only_of_ghost {i : Slot} {id : Nat} (missed : c.store.find? id = none)
    (lost : c.store.findGhost? id = some i) (j : Slot) (u : Record Tier) (hu : c.store.get? j = some u)
    (same : u.id = id) : j = i := by
  have ghost : u.ghost = true := by
    by_contra live
    exact (h.consistent.find?_eq_none_iff id).mp missed j u hu (by simpa using live) same
  have found := (h.consistent.findGhost?_eq_some_iff id j).mpr ⟨u, hu, same, ghost⟩
  rw [lost] at found
  exact (Option.some.inj found).symm

theorem absent_of_missed {id : Nat} (missed : c.store.find? id = none)
    (lost : c.store.findGhost? id = none) : c.absent id := by
  intro j u hu same
  cases ghost : u.ghost with
  | false => exact (h.consistent.find?_eq_none_iff id).mp missed j u hu ghost same
  | true =>
    have found := (h.consistent.findGhost?_eq_some_iff id j).mpr ⟨u, hu, same, ghost⟩
    rw [lost] at found
    cases found

theorem settles_revive {i : Slot} {r : Record Tier} (hr : c.store.get? i = some r)
    (missed : c.store.find? r.id = none) (lost : c.store.findGhost? r.id = some i) :
    Settles t (c.revive i r) fun d => d.Sound ∧ d.account = c.account ∧ d.absent r.id := by
  obtain ⟨u, hu, -, ghost⟩ := (h.consistent.findGhost?_eq_some_iff r.id i).mp lost
  rw [hr] at hu
  cases hu
  have adapted := h.recount c.account rfl rfl rfl rfl (c.adapted r.tag) (some r.tag)
  refine (adapted.settles_drop hr).mono fun d done => ?_
  obtain ⟨dropped, account, get⟩ := done
  rw [if_pos ghost] at account
  exact ⟨dropped, account, absent_of_only (c := c) get (h.only_of_ghost missed lost)⟩

theorem settles_check (req : Request) (update : Bool) :
    Settles t (c.check req update) (Found c req update) := by
  -- Forgetting what the last request hit changes nothing that counts here.
  obtain ⟨d, hd, sound, terms⟩ : ∃ d, (if update then { c with ghostHit := none } else c) = d ∧
      d.Sound ∧ d.account = c.account := by
    cases update with
    | true => exact ⟨_, rfl, h.recount c.account rfl rfl rfl rfl c.target none, rfl⟩
    | false => exact ⟨_, rfl, h, rfl⟩
  unfold check
  dsimp only
  rw [hd]
  have same : ∀ p, Found d req update p → Found c req update p := fun p found =>
    ⟨found.sound, terms ▸ found.terms, found.cached, found.missed⟩
  refine Settles.mono ?_ same
  cases found : d.store.find? req.id with
  | some i =>
    obtain ⟨r, hr, hid, live⟩ := (sound.consistent.find?_eq_some_iff req.id i).mp found
    simp only [hr]
    exact sound.settles_checkLive req update hr hid live
  | none =>
    dsimp only
    split
    · cases lost : d.store.findGhost? req.id with
      | none =>
        exact settles_pure ⟨sound, .refl _, fun _ => Outcome.noConfusion, fun _ _ =>
          sound.absent_of_missed found lost⟩
      | some i =>
        obtain ⟨r, hr, hid, -⟩ := (sound.consistent.findGhost?_eq_some_iff req.id i).mp lost
        simp only [hr]
        rw [← hid] at found lost
        refine settles_bind (sound.settles_revive hr found lost) fun e done => ?_
        obtain ⟨revived, account, absent⟩ := done
        rw [hid] at absent
        refine settles_pure ⟨revived, ?_, fun _ => Outcome.noConfusion, fun _ _ => absent⟩
        rw [account]
        exact .refl _
    · rename_i readOnly
      exact settles_pure ⟨sound, .refl _, fun u => absurd u readOnly, fun u => absurd u readOnly⟩

theorem settles_insert {req : Request} (absent : c.absent req.id)
    (room : c.account.occupied + (req.size + c.account.overhead) ≤ c.account.capacity) :
    Settles t (c.insert req) fun p => p.2.Sound ∧ c.account.SameTerms p.2.account ∧
      p.2.store.caches req.id = true := by
  obtain ⟨seqs, L⟩ := h.lists
  have free := (L.consistent.find?_eq_none_iff req.id).mpr fun i r hr _ => absent i r hr
  unfold insert
  refine settles_bind (Account.settles_footprint c.account req.size) ?_
  rintro bytes ⟨rfl, -⟩
  dsimp only
  generalize (if c.ghostHit.isSome then Tier.frequent else .recent) = tier
  refine settles_bind (L.consistent.settles_insert c.account.now tier free) ?_
  rintro ⟨i, store⟩ admits
  dsimp only at admits ⊢
  obtain ⟨expiry, hr⟩ := admits.record
  have out : ∀ m, i ∉ seqs m := by
    intro m hi
    obtain ⟨r, hr, -⟩ := (L.mem_iff m i).mp hi
    rw [admits.free] at hr
    cases hr
  have L₁ := (L.loosen (some i)).restore c.account admits.consistent rfl
    (fun k j hj => by rw [admits.other j fun e => out k (e ▸ hj)])
    fun j hj => by rw [admits.other j fun e => hj (congrArg some e)]
  have L₁ : Lists { c with store, ghostHit := none } seqs (some i) :=
    ⟨L₁.consistent, L₁.family, L₁.mem, L₁.bytes⟩
  refine settles_bind (L₁.settles_attach (k := (tier, false)) out hr) ?_
  rintro d ⟨L₂, shifted⟩
  obtain ⟨u, hu, hbare⟩ := shifted.same.get? hr
  obtain ⟨l, rfl⟩ := Record.exists_links_of_bare hbare
  have account : d.account = c.account := shifted.account
  rw [account]
  refine settles_bind (Account.settles_charge c.account req.size) ?_
  rintro _ ⟨rfl, word⟩
  have L₃ := L₂.restore (c.account.charged req.size) L₂.consistent
    (by rw [account]; rfl) (fun _ _ _ => rfl) fun _ _ => rfl
  have none : c.store.liveSize? i = .none := Store.liveSize?_of_none admits.free
  have fastened := L₃.fasten_at (fun m _ => out m) List.mem_cons_self hu rfl
  have exclusive := (h.exclusive.admitted admits absent).of_sub fun j v hv =>
    Store.exists_of_same_bare shifted.same hv
  refine settles_pure ⟨⟨⟨_, fastened⟩, ?_, room, exclusive⟩, Account.sameTerms_charged _ _, ?_⟩
  · refine (h.balanced.charged none admits.liveSize? word).keep fun j => ?_
    exact Store.liveSize?_same (s := store)
      (shifted.same.of_comp (fun r => (r.size, r.ghost)) fun _ => rfl) j
  · have cached := (admits.consistent.caches_iff req.id).mpr ⟨i, _, hr, rfl, rfl⟩
    rw [Store.caches, Store.find?] at cached ⊢
    rw [shifted.index]
    exact cached

end Sound

theorem dependable : EvictionPolicy.Dependable t
    (fun (c : Arc) id => c.store.caches id = true) absent Sound where
  account_withAccount _ _ := rfl
  begun c req h := h.recount (c.account.begun req) rfl rfl rfl rfl c.target c.ghostHit
  within _ h := h.within
  evictable c h some := by
    by_contra none
    have zero : c.account.objects = 0 := by
      by_contra pos
      exact none ⟨Nat.pos_of_ne_zero pos, Nat.pos_of_ne_zero pos⟩
    have := h.balanced.occupied_eq_zero zero
    exact absurd some (by rw [show EvictionPolicy.account c = c.account from rfl, this]; exact Nat.lt_irrefl 0)
  check c req update h := (h.settles_check req update).mono fun _ found =>
    ⟨found.sound, found.terms, fun u => ⟨found.cached u, found.missed u⟩⟩
  evict c req h := by
    refine settles_bind (h.settles_step req.size) fun d stepped => settles_pure ?_
    exact ⟨stepped.sound, stepped.terms, stepped.absent,
      fun some => decide_eq_true (stepped.fewer some), of_decide_eq_true⟩
  insert c req h absent room := h.settles_insert absent room
  remove c id h := by
    show Settles t (c.remove id) _
    unfold remove
    cases found : c.store.find? id with
    | none => exact settles_pure h
    | some i =>
      obtain ⟨r, hr, -, -⟩ := (h.consistent.find?_eq_some_iff id i).mp found
      exact settles_bind (h.settles_drop hr) fun d dropped => settles_pure dropped.1
  settle c hit h := settles_pure ⟨h, .refl _, fun _ => Iff.rfl⟩

end Arc
end CacheReplay
