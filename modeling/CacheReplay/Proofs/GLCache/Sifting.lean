import CacheReplay.Proofs.GLCache.Ghosts
import CacheReplay.Proofs.GLCache.Ownership

set_option autoImplicit false

namespace CacheReplay.GLCache

variable {t : Tolerance}

/-- A record as it was, but for its tag; it may have fewer hits. -/
structure Succeeds (u r : Record ObjectTag) : Prop where
  same : { u with tag := r.tag } = r
  freq : r.tag.freq ≤ u.tag.freq

namespace Succeeds
variable {u v r : Record ObjectTag}

theorem refl (r : Record ObjectTag) : Succeeds r r := ⟨rfl, Nat.le_refl _⟩

theorem trans (h : Succeeds u v) (k : Succeeds v r) : Succeeds u r where
  same := by
    rw [← k.same, ← h.same]
  freq := Nat.le_trans k.freq h.freq

theorem id_eq (h : Succeeds u r) : u.id = r.id := by
  rw [← h.same]

end Succeeds

structure Sheds (ps : List Slot) (c d : Contents) : Prop where
  others : ∀ i r, c.store.live? i = some r → r.tag.segment ∉ ps → d.store.live? i = some r
  live : ∀ i r, d.store.live? i = some r → ∃ u, c.store.live? i = some u ∧ Succeeds u r
  terms : c.account.SameTerms d.account
  occupied : d.account.occupied ≤ c.account.occupied

namespace Sheds
variable {ps qs : List Slot} {c d e : Contents}

theorem of_live (same : ∀ i, d.store.live? i = c.store.live? i) (account : d.account = c.account) :
    Sheds ps c d where
  others i r hr _ := (same i).trans hr
  live i r hr := ⟨r, (same i).symm.trans hr, .refl r⟩
  terms := by
    rw [account]
    exact .refl _
  occupied := by
    rw [account]

theorem trans (h : Sheds ps c d) (k : Sheds ps d e) : Sheds ps c e where
  others i r hr away := k.others i r (h.others i r hr away) away
  live i r hr := by
    obtain ⟨u, hu, later⟩ := k.live i r hr
    obtain ⟨v, hv, sooner⟩ := h.live i u hu
    exact ⟨v, hv, sooner.trans later⟩
  terms := h.terms.trans k.terms
  occupied := Nat.le_trans k.occupied h.occupied

theorem mono (h : Sheds ps c d) (sub : ∀ p ∈ ps, p ∈ qs) : Sheds qs c d :=
  { h with others := fun i r hr away => h.others i r hr fun mem => away (sub _ mem) }

end Sheds

section
variable {lists ghosts : Slot → List Slot} {p : Slot}

theorem mem_update (l : List Slot) (k j : Slot) :
    j ∈ Function.update lists p l k ↔ if k = p then j ∈ l else j ∈ lists k := by
  rw [Function.update_apply]
  split <;> rfl

theorem nodup_update {l : List Slot} (h : ∀ k, k ≠ p → (lists k).Nodup) (nodup : l.Nodup) (k : Slot) :
    (Function.update lists p l k).Nodup := by
  rw [Function.update_apply]
  split
  · exact nodup
  · exact h k (by assumption)

theorem subset_update {gs more : List Slot} (sub : ∀ i ∈ gs, i ∈ more) (k : Slot) :
    ∀ i ∈ Function.update ghosts p gs k, i ∈ Function.update ghosts p more k := by
  intro i hi
  by_cases e : k = p
  · rw [e, Function.update_self] at hi ⊢
    exact sub i hi
  · rw [Function.update_of_ne e] at hi ⊢
    exact hi

theorem nodup_moved {target i : Slot} {rest kept : List Slot}
    (h : ∀ k, (Function.update (Function.update lists p (i :: rest)) target kept k).Nodup)
    (out : i ∉ kept) (k : Slot) :
    (Function.update (Function.update lists p rest) target (kept ++ [i]) k).Nodup := by
  have old := h k
  by_cases at_target : k = target
  · rw [at_target, Function.update_self] at old ⊢
    rw [← List.concat_eq_append, List.nodup_concat]
    exact ⟨out, old⟩
  · rw [Function.update_of_ne at_target] at old ⊢
    by_cases at_p : k = p
    · rw [at_p, Function.update_self] at old ⊢
      exact old.of_cons
    · rw [Function.update_of_ne at_p] at old ⊢
      exact old

/-- Where objects are listed once one of them has moved from a segment to the target. -/
theorem mem_moved {target i : Slot} {rest kept : List Slot} (apart : p ≠ target) (out : i ∉ rest)
    (elsewhere : ∀ k, k ≠ p → k ≠ target → i ∉ lists k) (k j : Slot) :
    j ∈ Function.update (Function.update lists p rest) target (kept ++ [i]) k ↔
      if i = j then target = k
      else j ∈ Function.update (Function.update lists p (i :: rest)) target kept k := by
  simp only [mem_update]
  by_cases at_target : k = target
  · by_cases e : i = j
    · simp [at_target, e]
    · simp [at_target, e, Ne.symm e]
  · by_cases at_p : k = p
    · by_cases e : i = j
      · subst e
        simp [at_p, apart, Ne.symm apart, out]
      · simp [at_p, apart, e, Ne.symm e]
    · by_cases e : i = j
      · subst e
        simp [at_target, Ne.symm at_target, at_p, elsewhere k at_p at_target]
      · simp [at_target, at_p, e]

end

section
variable {s : Store ObjectTag} {a : Account} {lists ghosts : Slot → List Slot} {p i : Slot}
  {rest gs : List Slot} {r : Record ObjectTag}

theorem Ledger.exists_next (h : Ledger s a (Function.update lists p (i :: rest)) ghosts) :
    ∃ r, s.live? i = some r ∧ r.tag.segment = p ∧ i ∉ rest ∧ rest.Nodup := by
  have mem : i ∈ Function.update lists p (i :: rest) p := by
    rw [Function.update_self]
    exact List.mem_cons_self
  obtain ⟨r, hr, home⟩ := (h.live p i).mp mem
  have nodup := h.nodup p
  rw [Function.update_self, List.nodup_cons] at nodup
  exact ⟨r, hr, home, nodup⟩

/-- Without the next object, the lists hold what they held, and it once less. -/
theorem Ledger.mem_next (h : Ledger s a (Function.update lists p (i :: rest)) ghosts) (k j : Slot) :
    j ∈ Function.update lists p rest k ↔ j ∈ Function.update lists p (i :: rest) k ∧ j ≠ i := by
  obtain ⟨r, hr, home, out, -⟩ := h.exists_next
  rw [mem_update, mem_update]
  split
  · rw [List.mem_cons]
    constructor
    · intro hj
      exact ⟨.inr hj, fun e => out (e ▸ hj)⟩
    · intro hj
      exact hj.1.resolve_left hj.2
  · rename_i hk
    refine (and_iff_left_of_imp fun hj e => hk ?_).symm
    have listed := (h.live k j).mp (by rw [Function.update_of_ne hk]; exact hj)
    rw [e] at listed
    obtain ⟨v, hv, at_k⟩ := listed
    rw [hr] at hv
    cases hv
    rw [← at_k, home]

theorem Ledger.nodup_next (h : Ledger s a (Function.update lists p (i :: rest)) ghosts) (k : Slot) :
    (Function.update lists p rest k).Nodup := by
  obtain ⟨-, -, -, -, nodup⟩ := h.exists_next
  refine nodup_update (fun k hk => ?_) nodup k
  have old := h.nodup k
  rwa [Function.update_of_ne hk] at old

theorem Ledger.without (h : Ledger s a (Function.update lists p (i :: rest)) ghosts)
    (hr : s.live? i = some r) :
    (∀ j, (s.without i).live? j = if i = j then none else s.live? j) ∧
      Ledger (s.without i) (a.released r.size) (Function.update lists p rest) ghosts := by
  have get := ((s.live?_eq_some_iff i r).mp hr).1
  obtain ⟨consistent, at_other⟩ := h.consistent.without get
  have off := h.consistent.live?_without get
  refine ⟨off, h.lose hr consistent off h.nodup_next h.mem_next fun j v hv ghost => ?_⟩
  rw [at_other] at hv
  split at hv
  · cases hv
  · exact h.ghost j v hv ghost

theorem Ledger.demoted (h : Ledger s a (Function.update lists p (i :: rest)) (Function.update ghosts p gs))
    (hr : s.live? i = some r) :
    (∀ j, (s.demoted i).live? j = if i = j then none else s.live? j) ∧
      Ledger (s.demoted i) (a.released r.size) (Function.update lists p rest)
        (Function.update ghosts p (gs ++ [i])) := by
  obtain ⟨get, alive⟩ := (s.live?_eq_some_iff i r).mp hr
  obtain ⟨u, hu, home, -⟩ := h.exists_next
  have same : u = r := Option.some.inj (hu.symm.trans hr)
  subst same
  obtain ⟨consistent, self, at_other⟩ := h.consistent.demoted get alive
  have off := h.consistent.live?_demoted get alive
  refine ⟨off, h.lose hr consistent off h.nodup_next h.mem_next fun j v hv ghost => ?_⟩
  by_cases hj : j = i
  · rw [hj, self] at hv
    cases hv
    rw [show ({ u with ghost := true } : Record ObjectTag).tag.segment = p from home,
      Function.update_self, hj]
    exact List.mem_append_right _ (List.mem_singleton_self i)
  · rw [at_other j hj] at hv
    split at hv
    · cases hv
    · exact subset_update (fun k hk => List.mem_append_left _ hk) _ j (h.ghost j v hv ghost)

end

def unseen (s : Store ObjectTag) (sampled : Bool) (l : List Slot) (i : Slot) : Prop :=
  i ∈ l ∧ ∃ r, s.live? i = some r ∧ (sampled && !r.tag.seen) = true

theorem unseen_cons {s s' : Store ObjectTag} {sampled : Bool} {i : Slot} {rest : List Slot}
    {r : Record ObjectTag} (hr : s.live? i = some r) (out : i ∉ rest)
    (off : ∀ j, j ≠ i → s'.live? j = s.live? j) (j : Slot) :
    unseen s sampled (i :: rest) j ↔ (j = i ∧ (sampled && !r.tag.seen) = true) ∨ unseen s' sampled rest j := by
  by_cases e : j = i
  · subst e
    simp [unseen, hr, out]
  · simp [unseen, off j e, e]

namespace Contents

/-- Dropping an object takes it, and nothing else, out of the list of its segment. -/
theorem yields_dropObject {c : Contents} {lists ghosts : Slot → List Slot} {p i : Slot}
    {rest gs : List Slot} {r : Record ObjectTag}
    (h : Ledger c.store c.account (Function.update lists p (i :: rest)) (Function.update ghosts p gs))
    (hr : c.store.live? i = some r) (ghost : Bool) :
    Yields (c.dropObject i r ghost) fun d => d.table = c.table ∧
      Ledger d.store d.account (Function.update lists p rest)
        (Function.update ghosts p (gs ++ (if ghost then some i else none).toList)) ∧
      Sheds [p] c d ∧ (∀ j, d.store.live? j = if i = j then none else c.store.live? j) ∧
      d.account = c.account.released r.size ∧ 0 < c.account.objects ∧
      Store.Leaves (fun j => j = i ∧ ghost = true) c.store d.store := by
  have some := (c.store.live?_eq_some_iff i r).mp hr
  have liveSize := Store.liveSize?_of_live some.1 some.2
  have pos := (h.balanced.covers liveSize).2
  obtain ⟨u, hu, home, -⟩ := h.exists_next
  have same : u = r := Option.some.inj (hu.symm.trans hr)
  subst same
  unfold dropObject
  rw [h.balanced.release_eq liveSize, ok_bind]
  have sheds : ∀ store : Store ObjectTag,
      (∀ j, store.live? j = if i = j then none else c.store.live? j) →
      Sheds [p] c { c with account := c.account.released u.size, store } := by
    intro store off
    refine ⟨fun j v hv away => (off j).trans ?_, fun j v hv => ?_, c.account.sameTerms_released u.size,
      Nat.sub_le _ _⟩
    · rw [if_neg]
      · exact hv
      · intro e
        rw [← e, hr] at hv
        cases hv
        exact away (by rw [home]; exact List.mem_singleton_self p)
    · rw [show store.live? j = _ from off j] at hv
      split at hv
      · cases hv
      · exact ⟨v, hv, .refl v⟩
  cases ghost with
  | false =>
    obtain ⟨off, ledger⟩ := h.without hr
    rw [if_neg Bool.false_ne_true, h.consistent.delete_eq, ok_bind]
    refine yields_pure ⟨rfl, ?_, sheds _ off, off, rfl, pos, ?_⟩
    · simp only [Bool.false_eq_true, if_false, Option.toList_none, List.append_nil]
      exact ledger
    · exact (h.consistent.leaves_without some.1 some.2).congr fun _ => by simp
  | true =>
    obtain ⟨off, ledger⟩ := h.demoted hr
    rw [if_pos rfl, h.consistent.demote_eq some.1 some.2, ok_bind]
    refine yields_pure ⟨rfl, ledger, sheds _ off, off, rfl, pos, ?_⟩
    exact (h.consistent.leaves_demoted some.1 some.2).congr fun _ => by simp

theorem yields_dropAll (sampled : Bool) {c : Contents} {lists ghosts : Slot → List Slot} {p : Slot}
    {objects gs : List Slot}
    (h : Ledger c.store c.account (Function.update lists p objects) (Function.update ghosts p gs)) :
    Yields (dropAll sampled objects c) fun q => q.2.2.table = c.table ∧
      Ledger q.2.2.store q.2.2.account (Function.update lists p [])
        (Function.update ghosts p (gs ++ q.2.1)) ∧
      Sheds [p] c q.2.2 ∧ q.1 + q.2.2.account.objects = c.account.objects ∧
      (sampled = false → q.2.1 = []) ∧
      (∀ i r, q.2.2.store.live? i = some r → c.store.live? i = some r) ∧
      Store.Leaves (unseen c.store sampled objects) c.store q.2.2.store := by
  induction objects generalizing c gs with
  | nil =>
    refine yields_pure ⟨rfl, ?_, .of_live (fun _ => rfl) rfl, Nat.zero_add _, fun _ => rfl,
      fun _ _ hr => hr, (Store.Leaves.refl _).congr fun _ => by simp [unseen]⟩
    rw [List.append_nil]
    exact h
  | cons i rest ih =>
    obtain ⟨r, hr, -, out, -⟩ := h.exists_next
    unfold dropAll
    rw [((c.store.live?_eq_some_iff i r).mp hr).1]
    refine yields_bind (yields_dropObject h hr (sampled && !r.tag.seen)) fun d drop => ?_
    obtain ⟨table, ledger, sheds, off, account, pos, leaves⟩ := drop
    refine yields_bind (ih ledger) fun q done => ?_
    obtain ⟨n, left, e⟩ := q
    obtain ⟨table', ledger', sheds', count, none, fewer, leaves'⟩ := done
    dsimp only at table' ledger' sheds' count none fewer leaves' ⊢
    have released : d.account.objects = c.account.objects - 1 := by rw [account]; rfl
    have apart : ∀ j, j ≠ i → d.store.live? j = c.store.live? j := fun j hj => by
      rw [off, if_neg (Ne.symm hj)]
    refine yields_pure ⟨table'.trans table, ?_, sheds.trans sheds', ?_, fun out => ?_, fun j u hu => ?_, ?_⟩
    · rw [List.append_assoc] at ledger'
      have order : (if sampled && !r.tag.seen then i :: left else left) =
          (if sampled && !r.tag.seen then some i else .none).toList ++ left := by
        split <;> rfl
      rw [order]
      exact ledger'
    · show n + 1 + e.account.objects = c.account.objects
      omega
    · simp [out, none out]
    · have mid := fewer j u hu
      rw [off] at mid
      split at mid
      · cases mid
      · exact mid
    · refine (leaves.trans leaves' h.consistent fun j hj => apart j ?_).congr (unseen_cons hr out apart)
      rintro rfl
      exact out hj.1

end Contents

section
variable {s s' : Store ObjectTag}

theorem heldBytes_append (s : Store ObjectTag) (overhead : Nat) (l m : List Slot) :
    heldBytes s overhead (l ++ m) = heldBytes s overhead l + heldBytes s overhead m := by
  simp [heldBytes]

theorem heldBytes_singleton {overhead i : Nat} {r : Record ObjectTag} (hr : s.live? i = some r) :
    heldBytes s overhead [i] = r.size + overhead := by
  simp [heldBytes, Store.liveSize?, hr]

theorem heldActive_append (s : Store ObjectTag) (l m : List Slot) :
    heldActive s (l ++ m) = heldActive s l + heldActive s m := by
  simp [heldActive]

theorem heldActive_singleton {i : Nat} {r : Record ObjectTag} (hr : s.live? i = some r) :
    heldActive s [i] = if r.tag.active then 1 else 0 := by
  simp [heldActive, hr]

end

namespace Merging

/-- The ledger during a merge; what is kept fits, is counted and counts as not hit. -/
structure Sifting (g : Merging) (lists ghosts : Slot → List Slot) : Prop where
  ledger : Ledger g.contents.store g.contents.account (Function.update lists g.target g.kept.toList) ghosts
  fits : g.kept.size ≤ g.contents.table.segmentSize
  bytes : g.keptBytes = heldBytes g.contents.store g.contents.account.overhead g.kept.toList
  active : heldActive g.contents.store g.kept.toList = 0

structure Follows (p : Slot) (g g' : Merging) : Prop where
  sheds : Sheds [p] g.contents g'.contents
  table : g'.contents.table = g.contents.table
  target : g'.target = g.target
  count : g'.dropped + g'.contents.account.objects = g.dropped + g.contents.account.objects
  moved : ∀ i r, g'.contents.store.live? i = some r →
    g.contents.store.live? i = some r ∨ (r.tag.segment = g.target ∧ r.tag.seen = false)

theorem Follows.trans {p : Slot} {g g' g'' : Merging} (h : Follows p g g') (k : Follows p g' g'') :
    Follows p g g'' where
  sheds := h.sheds.trans k.sheds
  table := k.table.trans h.table
  target := k.target.trans h.target
  count := k.count.trans h.count
  moved i r hr := by
    rcases k.moved i r hr with same | moved
    · exact h.moved i r same
    · rw [h.target] at moved
      exact .inr moved

section
variable {g : Merging} {lists ghosts : Slot → List Slot} {p i : Slot} {rest gs : List Slot}
  {r : Record ObjectTag}

theorem Sifting.swap (h : g.Sifting (Function.update lists p rest) ghosts) (apart : p ≠ g.target) :
    Ledger g.contents.store g.contents.account
      (Function.update (Function.update lists g.target g.kept.toList) p rest) ghosts := by
  rw [Function.update_comm (Ne.symm apart)]
  exact h.ledger

theorem Sifting.not_mem_kept (h : g.Sifting lists ghosts) (hr : g.contents.store.live? i = some r)
    (away : r.tag.segment ≠ g.target) : i ∉ g.kept.toList := by
  intro hi
  have listed := (h.ledger.live g.target i).mp (by rw [Function.update_self]; exact hi)
  obtain ⟨v, hv, home⟩ := listed
  rw [hr] at hv
  cases hv
  exact away home

theorem Sifting.of_kept {g' : Merging} (h : g.Sifting lists ghosts) {lists' ghosts' : Slot → List Slot}
    (target : g'.target = g.target) (kept : g'.kept = g.kept) (keptBytes : g'.keptBytes = g.keptBytes)
    (table : g'.contents.table = g.contents.table)
    (overhead : g'.contents.account.overhead = g.contents.account.overhead)
    (same : ∀ j ∈ g.kept.toList, g'.contents.store.live? j = g.contents.store.live? j)
    (ledger : Ledger g'.contents.store g'.contents.account
      (Function.update lists' g.target g.kept.toList) ghosts') : g'.Sifting lists' ghosts' where
  ledger := by
    rw [target, kept]
    exact ledger
  fits := by
    rw [kept, table]
    exact h.fits
  bytes := by
    rw [keptBytes, kept, overhead, h.bytes]
    exact (heldBytes_congr _ fun j hj => by rw [Store.liveSize?, same j hj]; rfl).symm
  active := by
    rw [kept, ← h.active]
    exact heldActive_congr fun j hj => by rw [same j hj]

theorem Sifting.settles_move (h : g.Sifting (Function.update lists p (i :: rest)) ghosts)
    (apart : p ≠ g.target) (hr : g.contents.store.live? i = some r)
    (room : g.kept.size < g.contents.table.segmentSize) :
    Settles t (g.move i r) fun g' => Follows p g g' ∧
      g'.Sifting (Function.update lists p rest) ghosts ∧
      (∀ j, j ≠ i → g'.contents.store.live? j = g.contents.store.live? j) ∧
      Store.Leaves (fun _ => False) g.contents.store g'.contents.store := by
  have ledger := h.swap apart
  obtain ⟨u, hu, home, out, nodup⟩ := ledger.exists_next
  have same : u = r := Option.some.inj (hu.symm.trans hr)
  subst same
  have away := h.not_mem_kept hr (by rw [home]; exact apart)
  unfold move
  refine settles_bind (settles_addCount _ _) fun doubled more => ?_
  have halved : doubled / 2 ≤ u.tag.freq := by omega
  refine settles_bind (g.contents.account.settles_footprint u.size) fun bytes hbytes => ?_
  refine settles_bind (settles_addWord _ _) fun keptBytes hkept => ?_
  obtain ⟨rfl, -⟩ := hbytes
  obtain ⟨rfl, -⟩ := hkept
  have off := g.contents.store.live?_modify i
    (f := fun r => { r with tag := ⟨g.target, doubled / 2, false, false⟩ }) fun _ _ => rfl
  have size := g.contents.store.liveSize?_modify i
    (f := fun r => { r with tag := ⟨g.target, doubled / 2, false, false⟩ }) fun _ _ => ⟨rfl, rfl⟩
  have self := off i
  rw [if_pos rfl, hr] at self
  have other : ∀ j, j ≠ i → _ := fun j hj => (off j).trans (if_neg (Ne.symm hj))
  obtain ⟨get, alive⟩ := (g.contents.store.live?_eq_some_iff i u).mp hr
  refine settles_pure ⟨⟨⟨fun j v hv hout => ?_, fun j v hv => ?_, .refl _, Nat.le_refl _⟩, rfl, rfl, rfl,
    fun j v hv => ?_⟩, ?_, other, Store.leaves_modify get alive rfl⟩
  · refine (other j fun e => hout ?_).trans hv
    rw [e, hr] at hv
    cases hv
    rw [home]
    exact List.mem_singleton_self p
  · by_cases e : j = i
    · rw [e] at hv ⊢
      cases (self.symm.trans hv)
      exact ⟨u, hr, rfl, halved⟩
    · exact ⟨v, (other j e).symm.trans hv, .refl v⟩
  · by_cases e : j = i
    · rw [e] at hv
      cases (self.symm.trans hv)
      exact .inr ⟨rfl, rfl⟩
    · exact .inl ((other j e).symm.trans hv)
  · constructor
    · dsimp only
      rw [Array.toList_push]
      refine h.ledger.modify hr ⟨rfl, rfl, rfl⟩ (nodup_moved h.ledger.nodup away)
        (mem_moved apart out fun k hp ht hi => ?_)
      · have listed := (h.ledger.live k i).mp (by
          rw [Function.update_of_ne ht, Function.update_of_ne hp]
          exact hi)
        obtain ⟨v, hv, at_k⟩ := listed
        rw [hr] at hv
        cases hv
        exact hp (at_k.symm.trans home)
    · show (g.kept.push i).size ≤ _
      rw [Array.size_push]
      exact room
    · dsimp only
      rw [Array.toList_push, heldBytes_append, heldBytes_singleton self, h.bytes]
      exact congrArg (· + _) (heldBytes_congr _ fun j _ => size j).symm
    · dsimp only
      rw [Array.toList_push, heldActive_append, heldActive_singleton self]
      have kept := heldActive_congr fun j hj =>
        congrArg (Option.map (·.tag.active)) (other j fun e => away (e ▸ hj))
      rw [kept, h.active]
      rfl

theorem Sifting.fork (h : g.Sifting (Function.update lists p (i :: rest)) (Function.update ghosts p gs))
    (hr : g.contents.store.live? i = some r) (home : r.tag.segment = p) (scores : List Float) :
    ∃ j, (g.contents.store.forkGhost i).1 = some j ∧
      (∀ k, (g.contents.store.forkGhost i).2.live? k = g.contents.store.live? k) ∧
      Store.Leaves (fun j => j = i) g.contents.store (g.contents.store.forkGhost i).2 ∧
      Sifting { g with
        contents := { g.contents with store := (g.contents.store.forkGhost i).2 }, scores }
        (Function.update lists p (i :: rest)) (Function.update ghosts p (gs ++ [j])) := by
  obtain ⟨j, fst, off, forked⟩ := h.ledger.fork hr
  obtain ⟨get, live⟩ := (g.contents.store.live?_eq_some_iff i r).mp hr
  refine ⟨j, fst, off, h.ledger.consistent.leaves_forkGhost get live,
    h.of_kept rfl rfl rfl rfl rfl (fun k _ => off k) ?_⟩
  apply forked
  · exact subset_update fun k hk => List.mem_append_left _ hk
  · rw [home, Function.update_self]
    exact List.mem_append_right _ (List.mem_singleton_self j)

/-- One object is kept or dropped, and leaves a ghost only if its segment was sampled. -/
theorem Sifting.settles_sift (h : g.Sifting (Function.update lists p (i :: rest)) (Function.update ghosts p gs))
    (apart : p ≠ g.target) (sampled : Bool) :
    Settles t (g.sift sampled i) fun q => Follows p g q.2 ∧
      q.2.Sifting (Function.update lists p rest) (Function.update ghosts p (gs ++ q.1.toList)) ∧
      (sampled = false → q.1 = none) ∧
      (∀ j, j ≠ i → q.2.contents.store.live? j = g.contents.store.live? j) ∧
      ∀ r, g.contents.store.live? i = some r →
        Store.Leaves (fun j => j = i ∧ (sampled && !r.tag.seen) = true)
          g.contents.store q.2.contents.store := by
  obtain ⟨r, hr, home, -⟩ := (h.swap apart).exists_next
  have only : ∀ u, g.contents.store.live? i = some u → u = r := by
    intro u hu
    rw [hr] at hu
    exact (Option.some.inj hu).symm
  unfold sift
  dsimp only
  rw [((g.contents.store.live?_eq_some_iff i r).mp hr).1]
  dsimp only
  have unsampled : (sampled && !r.tag.seen) = true → sampled ≠ false := by
    intro leaves
    simp only [Bool.and_eq_true] at leaves
    simp [leaves.1]
  split
  · rename_i keep
    have room : g.kept.size < g.contents.table.segmentSize := by
      simp only [Bool.and_eq_true, decide_eq_true_eq] at keep
      exact keep.1
    cases leaves : sampled && !r.tag.seen with
    | false =>
      rw [if_neg Bool.false_ne_true]
      have start : Sifting { g with scores := g.scores.tail } (Function.update lists p (i :: rest))
          (Function.update ghosts p gs) := ⟨h.ledger, h.fits, h.bytes, h.active⟩
      refine settles_bind (start.settles_move apart hr room) fun g' moved => ?_
      obtain ⟨follows, sifting, other, leaves'⟩ := moved
      refine settles_pure ⟨⟨follows.sheds, follows.table, follows.target, follows.count, follows.moved⟩,
        ?_, fun _ => rfl, other, fun u hu => ?_⟩
      · rw [Option.toList_none, List.append_nil]
        exact sifting
      · rw [only u hu, leaves]
        exact leaves'.congr fun _ => by simp
    | true =>
      rw [if_pos rfl]
      obtain ⟨j, fst, off, forked, start⟩ := h.fork hr home g.scores.tail
      refine settles_bind (start.settles_move apart ((off i).trans hr) room) fun g' moved => ?_
      obtain ⟨follows, sifting, other, leaves'⟩ := moved
      have copied : Follows p g { g with
          contents := { g.contents with store := (g.contents.store.forkGhost i).2 }
          scores := g.scores.tail } :=
        ⟨.of_live off rfl, rfl, rfl, rfl, fun k v hv => .inl ((off k).symm.trans hv)⟩
      refine settles_pure ⟨copied.trans follows, ?_, fun out => absurd out (unsampled leaves),
        fun k hk => (other k hk).trans (off k), fun u hu => ?_⟩
      · rw [fst]
        exact sifting
      · rw [only u hu, leaves]
        exact (forked.trans leaves' h.ledger.consistent nofun).congr fun _ => by simp
  · refine settles_bind (Contents.yields_dropObject (h.swap apart) hr _).settles fun d drop => ?_
    obtain ⟨table, ledger, sheds, off, account, pos, leaves⟩ := drop
    refine settles_pure ⟨⟨sheds, table, rfl, ?_, fun j u hu => .inl ?_⟩, ?_, fun out => ?_,
      fun j hj => ?_, fun u hu => ?_⟩
    · have released : d.account.objects = g.contents.account.objects - 1 := by rw [account]; rfl
      show g.dropped + 1 + d.account.objects = g.dropped + g.contents.account.objects
      omega
    · rw [show d.store.live? j = _ from off j] at hu
      split at hu
      · cases hu
      · exact hu
    · rw [Function.update_comm (Ne.symm apart)] at ledger
      refine h.of_kept rfl rfl rfl table (by rw [account]; rfl) (fun j hj => ?_) ledger
      have away := h.not_mem_kept hr (by rw [home]; exact apart)
      rw [off, if_neg]
      intro e
      exact away (e ▸ hj)
    · rw [if_neg]
      intro leaves
      exact unsampled leaves out
    · exact (off j).trans (if_neg (Ne.symm hj))
    · rw [only u hu]
      exact leaves

theorem Sifting.settles_siftAll (sampled : Bool) {objects : List Slot}
    (h : g.Sifting (Function.update lists p objects) (Function.update ghosts p gs))
    (apart : p ≠ g.target) :
    Settles t (siftAll sampled objects g) fun q => Follows p g q.2 ∧
      q.2.Sifting (Function.update lists p []) (Function.update ghosts p (gs ++ q.1)) ∧
      (sampled = false → q.1 = []) ∧
      Store.Leaves (unseen g.contents.store sampled objects) g.contents.store q.2.contents.store := by
  induction objects generalizing g gs with
  | nil =>
    refine settles_pure ⟨⟨.of_live (fun _ => rfl) rfl, rfl, rfl, rfl, fun _ _ hr => .inl hr⟩, ?_,
      fun _ => rfl, (Store.Leaves.refl _).congr fun _ => by simp [unseen]⟩
    rw [List.append_nil]
    exact h
  | cons i rest ih =>
    obtain ⟨r, hr, -, out, -⟩ := (h.swap apart).exists_next
    unfold siftAll
    refine settles_bind (h.settles_sift apart sampled) fun q first => ?_
    obtain ⟨ghost, g'⟩ := q
    obtain ⟨follows, sifting, none, other, leaves⟩ := first
    refine settles_bind (ih sifting (by rw [follows.target]; exact apart)) fun q rest => ?_
    obtain ⟨left, g''⟩ := q
    obtain ⟨follows', sifting', none', leaves'⟩ := rest
    refine settles_pure ⟨follows.trans follows', ?_, fun out => ?_, ?_⟩
    · rw [List.append_assoc] at sifting'
      exact sifting'
    · have first := none out
      have left := none' out
      dsimp only at first left
      rw [first, left]
      rfl
    · refine ((leaves r hr).trans leaves' h.ledger.consistent fun j hj => other j ?_).congr
        (unseen_cons hr out other)
      rintro rfl
      exact out hj.1

end
end Merging
end CacheReplay.GLCache
