import CacheReplay.Proofs.Queue.Resolution

set_option autoImplicit false

namespace CacheReplay
open EvictionPolicy

namespace EvictionPolicy
variable {σ : Type} [EvictionPolicy σ]

/-- What looking at an object, or taking it out, costs beyond the operations that requests need. -/
structure Handy (debt : σ → Nat) (sound : σ → Prop) : Prop where
  look : ∀ (s : σ) (req : Request), Yields (check s req false) fun p => p.2 = s
  remove : ∀ (s : σ) (id : Nat), sound s →
    Yields (remove s id) fun p => (account s).Sheds (account p.2) ∧ debt p.2 ≤ debt s

/-- So many units may still be charged, and so many operations be done. -/
structure Solvent (debt : σ → Nat) (overhead n m : Nat) (s : σ) : Prop where
  overhead : (account s).overhead = overhead
  tally : (account s).tally ≤ (account s).requests
  requests : IsWord ((account s).requests + n)
  occupied : IsWord ((account s).occupied + n)
  debt : IsWord (debt s + m)

section
variable {debt : σ → Nat} {overhead n m : Nat} {s s' : σ}

theorem Solvent.of_sheds {k : Nat} (h : Solvent debt overhead (k + n) (m + 1) s)
    (shed : (account s).Sheds (account s')) (owed : debt s' ≤ debt s + 1) :
    Solvent debt overhead n m s' := by
  obtain ⟨fixed, tally, requests, occupied, debts⟩ := h
  have fewer := shed.tally
  have less := shed.occupied
  have same := shed.terms.requests
  constructor
  · exact shed.terms.overhead.trans fixed
  · omega
  · exact requests.of_le (by omega)
  · exact occupied.of_le (by omega)
  · exact debts.of_le (by omega)

end

namespace Exact
variable {t : Tolerance} {stored : σ → Nat → Option Nat} {debt : σ → Nat} {caches absent : σ → Nat → Prop}
  {sound : σ → Prop} (x : Exact stored debt absent sound) (d : Dependable t caches absent sound)
include x d

theorem yields_serve {req : Request} {s : σ} {overhead n m : Nat} (hs : sound s)
    (solvent : Solvent debt overhead (max 1 (req.size + overhead) + n) (m + 1) s)
    (timely : req.Timely) : Yields (serve s req) fun p => Solvent debt overhead n m p.2 := by
  obtain ⟨rfl, tally, requests, occupied, debts⟩ := solvent
  have terms := d.account_withAccount s ((account s).begun req)
  have owes := x.debt_withAccount s ((account s).begun req)
  have begun := d.begun s req hs
  have count : (account (withAccount s ((account s).begun req))).tally = (account s).tally := by
    rw [terms]
    rfl
  rw [x.serve_eq_answer]
  refine d.yields_answer (fun c => (account c).tally ≤ (account s).tally ∧
      (account c).occupied ≤ (account s).occupied ∧ (account c).overhead = (account s).overhead ∧
      (account c).requests = (account s).requests + 1 ∧ debt c ≤ debt s + 1)
    (fun c _ lean => ?_) (fun c hc lean => ?_) (fun c lean => ?_) (fun c hc lean missed room => ?_)
    hs (requests.of_le (by omega)) ?_
  · exact occupied.of_le (by omega)
  · apply (x.evict c req hc (debts.of_le (by omega))).mono
    rintro p ⟨shed, less⟩
    have fewer := shed.tally
    have bytes := shed.occupied
    have overhead := shed.terms.overhead
    have same := shed.terms.requests
    refine ⟨?_, ?_, ?_, ?_, ?_⟩ <;> omega
  · exact ⟨lean.2.2.1, by omega, requests.of_le (by omega), occupied.of_le (by omega),
      debts.of_le (by omega)⟩
  · have objects : IsWord ((account c).objects + 1) := by
      have fewer := lean.1
      have more : (account c).objects ≤ (account c).tally := Nat.le_add_right ..
      exact requests.of_le (by omega)
    apply (x.insert c req hc missed room timely (occupied.of_le (by omega)) objects).mono
    rintro p ⟨charged, -, less⟩
    have one : (account p.2).tally = (account c).tally + 1 := by
      rw [charged]
      unfold Account.tally Account.charged
      dsimp only
      omega
    have terms : (account c).SameTerms (account p.2) := charged ▸ (account c).sameTerms_charged req.size
    have same := terms.requests
    have bytes : (account p.2).occupied = (account c).occupied + (req.size + (account c).overhead) :=
      congrArg Account.occupied charged
    exact ⟨terms.overhead.trans lean.2.2.1, by omega, requests.of_le (by omega), occupied.of_le (by omega),
      debts.of_le (by omega)⟩
  · apply (x.check _ req begun (by rw [count]; exact requests.of_le (by omega))).mono
    rintro p ⟨shed, raised, -⟩
    rw [terms] at shed
    have fewer : (account p.2).tally ≤ (account s).tally := shed.tally
    have less : (account p.2).occupied ≤ (account s).occupied := shed.occupied
    exact ⟨fewer, less, shed.terms.overhead, shed.terms.requests, owes ▸ raised⟩

theorem yields_perform (handy : Handy debt sound) {op : Operation} {s : σ} {overhead n m : Nat}
    (hs : sound s) (solvent : Solvent debt overhead (op.cost overhead + n) (m + 1) s)
    (timely : op.Timely) : Yields (perform s op) fun s' => Solvent debt overhead n m s' := by
  cases op with
  | get req => exact yields_map (x.yields_serve d hs solvent timely)
  | check req update =>
    apply yields_map
    cases update with
    | false =>
      apply (handy.look s req).mono
      rintro p rfl
      exact solvent.of_sheds (.refl _) (Nat.le_succ _)
    | true =>
      have count : IsWord (account s).tally := solvent.requests.of_le (by have := solvent.tally; omega)
      exact (x.check s req hs count).mono fun p done => solvent.of_sheds done.1 done.2.1
  | remove id =>
    apply yields_map
    exact (handy.remove s id hs).mono fun p done => solvent.of_sheds done.1 (Nat.le_succ_of_le done.2)
  | evict req =>
    apply yields_map
    have word : IsWord (debt s) := solvent.debt.of_le (Nat.le_add_right ..)
    exact (x.evict s req hs word).mono fun p done => solvent.of_sheds done.1 (Nat.le_succ_of_le done.2)

theorem exists_run (handy : Handy debt sound) {overhead : Nat} {s : σ} {ops : List Operation}
    (hs : sound s) (solvent : Solvent debt overhead (ops.map (Operation.cost overhead)).sum ops.length s)
    (timely : ∀ op ∈ ops, op.Timely) : ∃ s', run s ops = .ok s' := by
  induction ops generalizing s with
  | nil => exact ⟨s, rfl⟩
  | cons op ops ih =>
    rw [List.map_cons, List.sum_cons, List.length_cons] at solvent
    have performed := (x.yields_perform d handy hs solvent (timely op List.mem_cons_self)).and
      (d.settles_perform s op hs)
    obtain ⟨c, e, left, hc⟩ := performed
    rw [run, List.foldlM_cons, e, ok_bind]
    exact ih hc left fun o ho => timely o (List.mem_cons_of_mem op ho)

end Exact

theorem Solvent.of_empty {debt : σ → Nat} {s : σ} {capacity overhead n m : Nat}
    (fresh : account s = .empty capacity overhead) (free : debt s = 0) (units : IsWord n)
    (count : IsWord m) : Solvent debt overhead n m s := by
  refine ⟨?_, ?_, ?_, ?_, ?_⟩
  · rw [fresh]
    rfl
  · rw [fresh]
    exact Nat.le_refl 0
  · rw [fresh]
    exact units.of_le (by simp [Account.empty])
  · rw [fresh]
    exact units.of_le (by simp [Account.empty])
  · exact count.of_le (by omega)

end EvictionPolicy

theorem ObjectQueue.check_unchanged {μ σ : Type} (q : ObjectQueue μ) (req : Request)
    (onHit : ObjectQueue μ → Slot → Checked (ObjectQueue μ)) (wrap : ObjectQueue μ → σ) :
    Yields (do
      let (o, q) ← q.check req false onHit
      pure (o, wrap q)) fun p => p.2 = wrap q := by
  obtain ⟨o, e⟩ := q.check_false req onHit
  rw [e]
  exact yields_pure rfl

theorem Fifo.handy : Handy (fun _ : Fifo => 0) fun c => c.queue.Kept fun _ => True where
  look c req := c.queue.check_unchanged req _ Fifo.mk
  remove c id k := by
    obtain ⟨s, h⟩ := k.holds
    exact yields_bind (h.yields_remove id) fun p shed => yields_pure ⟨shed, Nat.le_refl 0⟩

theorem Lru.handy : Handy (fun _ : Lru => 0) fun c => c.queue.Kept fun _ => True where
  look c req := c.queue.check_unchanged req _ Lru.mk
  remove c id k := by
    obtain ⟨s, h⟩ := k.holds
    exact yields_bind (h.yields_remove id) fun p shed => yields_pure ⟨shed, Nat.le_refl 0⟩

theorem Clock.settles_remove_total {q : ObjectQueue Nat} {s : List Slot} (h : q.Holds s) (id : Nat) :
    Settles .any (q.remove id) fun p =>
      p.2.store.records.total (·.tag) ≤ q.store.records.total (·.tag) := by
  unfold ObjectQueue.remove
  cases found : q.store.find? id with
  | none => exact settles_pure (Nat.le_refl _)
  | some i =>
    obtain ⟨r, hr, -, -⟩ := (h.consistent.find?_eq_some_iff id i).mp found
    exact settles_bind (settles_drop_total h hr) fun q' less => settles_pure less

theorem Clock.handy : Handy debt Clock.Sound where
  look c req := c.queue.check_unchanged req
    (fun q i => pure (q.touch i req fun count => min (count + 1) c.maxCount))
    fun q => (⟨q, c.maxCount, c.reinserted⟩ : Clock)
  remove c id k := by
    obtain ⟨s, h⟩ := k.holds
    apply yields_bind ((h.yields_remove id).and (settles_remove_total h id))
    exact fun p done => yields_pure ⟨done.1, Nat.add_le_add_left done.2 _⟩

theorem Sieve.handy : Handy (fun _ : Sieve => 0) Sieve.Sound where
  look c req := by
    show Yields (c.check req false) _
    unfold Sieve.check
    cases c.queue.lookup req with
    | missing => exact yields_pure rfl
    | found i => exact yields_pure rfl
    | expired i => exact yields_pure rfl
  remove c id k := by
    obtain ⟨s, h⟩ := k.kept.holds
    show Yields (c.remove id) _
    unfold Sieve.remove
    cases found : c.queue.store.find? id with
    | none => exact yields_pure ⟨.refl _, Nat.le_refl 0⟩
    | some i =>
      obtain ⟨r, hr, -, -⟩ := (h.consistent.find?_eq_some_iff id i).mp found
      have dropped : Yields (c.drop i) fun d => c.queue.account.Sheds d.queue.account := by
        apply yields_bind (h.yields_drop hr)
        intro q account
        exact yields_pure (account ▸ c.queue.account.sheds_released r.size)
      exact yields_bind dropped fun d shed => yields_pure ⟨shed, Nat.le_refl 0⟩

end CacheReplay
