import CacheReplay.Proofs.Queue.Refinement

set_option autoImplicit false

namespace CacheReplay

/-- The stack after some requests: each brings its object to the top. -/
def recencyStack (stack : List Nat) (ids : List Nat) : List Nat :=
  ids.foldl (fun stack id => id :: stack.erase id) stack

/-- Whether each request finds its object among so many from the top of the stack. -/
def stackHits (capacity : Nat) (stack : List Nat) : List Nat → List Bool
  | [] => []
  | id :: ids => decide (id ∈ stack.take capacity) :: stackHits capacity (id :: stack.erase id) ids

theorem take_erase_take (n a : Nat) (l : List Nat) :
    ((l.take (n + 1)).erase a).take n = (l.erase a).take n := by
  induction l generalizing n with
  | nil => simp
  | cons b l ih =>
    rw [List.take_succ_cons]
    by_cases same : b = a
    · subst same
      rw [List.erase_cons_head, List.erase_cons_head, List.take_take, Nat.min_self]
    · rw [List.erase_cons_tail (by simpa using same), List.erase_cons_tail (by simpa using same)]
      cases n with
      | zero => rfl
      | succ n => rw [List.take_succ_cons, List.take_succ_cons, ih]

/-- Bringing an object to the top commutes with looking at the top only. -/
theorem take_cons_erase_take (n a : Nat) (l : List Nat) :
    (a :: (l.take n).erase a).take n = (a :: l.erase a).take n := by
  cases n with
  | zero => rfl
  | succ n => rw [List.take_succ_cons, List.take_succ_cons, take_erase_take]

theorem stackHits_mono {small large : Nat} (le : small ≤ large) (stack ids : List Nat) :
    List.Forall₂ (fun a b => a = true → b = true) (stackHits small stack ids)
      (stackHits large stack ids) := by
  induction ids generalizing stack with
  | nil => exact .nil
  | cons id ids ih =>
    apply List.Forall₂.cons _ (ih _)
    rw [decide_eq_true_eq, decide_eq_true_eq]
    intro hit
    exact (List.take_prefix_take_left le).subset hit

example : stackHits 2 [] [1, 2, 3, 1, 3, 2] = [false, false, false, false, true, false] ∧
    stackHits 3 [] [1, 2, 3, 1, 3, 2] = [false, false, false, true, true, true] := by decide

namespace PlainQueue

def ids (q : PlainQueue) : List Nat := q.entries.map (·.id)

structure Uniform (q : PlainQueue) : Prop where
  overhead : q.overhead = 0
  unit : ∀ e ∈ q.entries, e.size = 1 ∧ e.expiry = none
  within : q.entries.length ≤ q.capacity

section
variable {es : List Entry}

theorem footprints_units (units : ∀ e ∈ es, e.size = 1) : footprints 0 es = es.length := by
  induction es with
  | nil => rfl
  | cons e es ih =>
    have rest := ih fun d hd => units d (List.mem_cons_of_mem e hd)
    rw [footprints] at rest ⊢
    rw [List.map_cons, List.sum_cons, rest, units e List.mem_cons_self, List.length_cons]
    omega

theorem dropUntil_units {limit : Nat} (units : ∀ e ∈ es, e.size = 1) :
    dropUntil 0 limit es = es.drop (es.length - limit) := by
  induction es with
  | nil =>
    rw [List.drop_nil]
    rfl
  | cons e es ih =>
    have rest := ih fun d hd => units d (List.mem_cons_of_mem e hd)
    rw [dropUntil, footprints_units units, rest]
    split
    · rename_i fits
      rw [Nat.sub_eq_zero_of_le fits, List.drop_zero]
    · rename_i full
      rw [List.length_cons] at full ⊢
      rw [show es.length + 1 - limit = (es.length - limit) + 1 by omega, List.drop_succ_cons]

theorem map_eraseP_id (id : Nat) : (es.eraseP (·.id == id)).map (·.id) = (es.map (·.id)).erase id := by
  induction es with
  | nil => rfl
  | cons e es ih =>
    by_cases same : e.id = id
    · rw [List.eraseP_cons_of_pos (by simpa using same), List.map_cons, same, List.erase_cons_head]
    · rw [List.eraseP_cons_of_neg (by simpa using same), List.map_cons, List.map_cons,
        List.erase_cons_tail (by simpa using same), ih]

end

namespace Uniform
variable {q : PlainQueue} (u : q.Uniform)
include u

theorem makeRoom_entries (need : Nat) :
    (q.makeRoom need).entries = q.entries.take (q.capacity - need) := by
  have units : ∀ e ∈ q.entries.reverse, e.size = 1 := fun e he => (u.unit e (List.mem_reverse.mp he)).1
  rw [makeRoom, u.overhead]
  dsimp only
  rw [dropUntil_units units, List.drop_reverse, List.reverse_reverse, List.length_reverse]
  apply List.take_eq_take_iff.mpr
  omega

theorem takeIn {req : Request} (size : req.size = 1) (forever : req.ttl = none) :
    (q.takeIn req).Uniform ∧ (q.takeIn req).capacity = q.capacity ∧
      (q.takeIn req).ids = (req.id :: q.ids).take q.capacity := by
  have within := u.within
  have overhead := u.overhead
  have fresh : Entry.ofRequest req = ⟨req.id, 1, none⟩ := by rw [Entry.ofRequest, size, forever]; rfl
  unfold PlainQueue.takeIn
  rw [overhead, size]
  split
  · rename_i small
    have kept := u.makeRoom_entries (1 + 0)
    refine ⟨⟨overhead, fun e he => ?_, ?_⟩, rfl, ?_⟩
    · rw [push, kept, fresh, List.mem_cons] at he
      rcases he with rfl | he
      · exact ⟨rfl, rfl⟩
      · exact u.unit e (List.mem_of_mem_take he)
    · rw [push, kept, List.length_cons, List.length_take]
      change min (q.capacity - (1 + 0)) q.entries.length + 1 ≤ q.capacity
      omega
    · obtain ⟨n, hn⟩ : ∃ n, q.capacity = n + 1 := ⟨q.capacity - 1, by omega⟩
      rw [push, ids, kept, fresh, hn, List.take_succ_cons, List.map_cons, List.map_take, ids]
      rfl
  · rename_i none
    have zero : q.capacity = 0 := by omega
    have empty : q.entries = [] := List.eq_nil_of_length_eq_zero (by omega)
    refine ⟨u, rfl, ?_⟩
    rw [zero, List.take_zero, ids, empty]
    rfl

theorem get {req : Request} (size : req.size = 1) (forever : req.ttl = none) :
    (q.get true req).1 = decide (req.id ∈ q.ids) ∧ (q.get true req).2.Uniform ∧
      (q.get true req).2.capacity = q.capacity ∧
      (q.get true req).2.ids = (req.id :: q.ids.erase req.id).take q.capacity := by
  unfold PlainQueue.get check
  cases found : q.find? req.id with
  | none =>
    have missing : req.id ∉ q.ids := by
      intro h
      obtain ⟨e, he, same⟩ := List.mem_map.mp h
      exact List.find?_eq_none.mp found e he (beq_iff_eq.mpr same)
    have admitted := u.takeIn size forever
    rw [List.erase_of_not_mem missing]
    exact ⟨by simp [missing], admitted⟩
  | some e =>
    have he : e ∈ q.entries := List.mem_of_find?_eq_some found
    have same : e.id = req.id := by simpa using List.find?_some found
    have hit : req.id ∈ q.ids := same ▸ List.mem_map_of_mem he
    have fresh : ¬e.expiredAt req.time = true := by
      rw [Entry.expiredAt, (u.unit e he).2]
      exact Bool.false_ne_true
    have rest : (q.without req.id).map (·.id) = q.ids.erase req.id := map_eraseP_id req.id
    have length : (req.id :: q.ids.erase req.id).length = q.entries.length := by
      rw [List.length_cons, List.length_erase_of_mem hit, ids, List.length_map]
      have pos := List.length_pos_of_mem he
      omega
    dsimp only
    rw [if_neg fresh]
    refine ⟨by simp [hit], ⟨u.overhead, fun d hd => ?_, ?_⟩, rfl, ?_⟩
    · have hd : d ∈ e :: q.without req.id := hd
      rcases List.mem_cons.mp hd with rfl | hd
      · exact u.unit d he
      · exact u.unit d (List.mem_of_mem_eraseP hd)
    · change (e :: q.without req.id).length ≤ q.capacity
      have shown := congrArg List.length rest
      rw [List.length_map] at shown
      rw [List.length_cons, shown, ← List.length_cons (a := req.id), length]
      exact u.within
    · change (e :: q.without req.id).map (·.id) = _
      rw [List.map_cons, rest, same, List.take_of_length_le (length ▸ u.within)]

/-- A queue that begins as the top of a stack stays the top of the stack. -/
theorem run {stack : List Nat} (top : q.ids = stack.take q.capacity) {reqs : List Request}
    (units : ∀ req ∈ reqs, req.size = 1 ∧ req.ttl = none) :
    (q.run true (reqs.map .get)).1 = stackHits q.capacity stack (reqs.map (·.id)) ∧
      (q.run true (reqs.map .get)).2.ids =
        (recencyStack stack (reqs.map (·.id))).take q.capacity := by
  induction reqs generalizing q stack with
  | nil => exact ⟨rfl, top⟩
  | cons req reqs ih =>
    obtain ⟨size, forever⟩ := units req List.mem_cons_self
    obtain ⟨answer, uniform, capacity, order⟩ := u.get size forever
    rw [top, take_cons_erase_take, ← capacity] at order
    have rest := ih uniform order fun r hr => units r (List.mem_cons_of_mem req hr)
    rw [capacity] at rest
    rw [List.map_cons, List.map_cons, PlainQueue.run, stackHits, recencyStack, List.foldl_cons]
    refine ⟨?_, rest.2⟩
    rw [← top, ← answer, ← rest.1]
    rfl

end Uniform

theorem uniform_empty (capacity : Nat) : (empty capacity 0).Uniform :=
  ⟨rfl, nofun, Nat.zero_le _⟩

end PlainQueue

open EvictionPolicy

/-- A cache is the top of the recency stack. -/
theorem Lru.settles_replies_stack (capacity : Nat) {reqs : List Request}
    (units : ∀ req ∈ reqs, req.size = 1 ∧ req.ttl = none) :
    Settles .arithmetic (replies (empty capacity 0) (reqs.map .get)) fun p =>
      p.1 = stackHits capacity [] (reqs.map (·.id)) ∧
        p.2.recencyOrder = (recencyStack [] (reqs.map (·.id))).take capacity := by
  have replied := settles_replies (t := .arithmetic) capacity 0 (reqs.map .get)
  have top : (PlainQueue.empty capacity 0).ids = [].take capacity := List.take_nil.symm
  have stacked := (PlainQueue.uniform_empty capacity).run top units
  apply replied.mono
  intro p mirrored
  obtain ⟨answers, shown⟩ := mirrored
  exact ⟨answers.trans stacked.1, shown.ids.trans stacked.2⟩

structure Lru.Nested (p q : List Bool × Lru) : Prop where
  order : p.2.recencyOrder <+: q.2.recencyOrder
  hits : List.Forall₂ (fun a b => a = true → b = true) p.1 q.1
  misses : q.1.count false ≤ p.1.count false

theorem count_false_le {as bs : List Bool} (h : List.Forall₂ (fun a b => a = true → b = true) as bs) :
    bs.count false ≤ as.count false := by
  induction h with
  | nil => exact Nat.le_refl _
  | @cons a b as bs imp _ ih =>
    rw [List.count_cons, List.count_cons]
    cases a with
    | false =>
      rw [beq_self_eq_true, if_pos rfl]
      split <;> omega
    | true =>
      rw [imp rfl]
      exact ih

/--
Of two caches that serve the same requests for objects of one byte, the smaller
one has its objects at the front of the larger one's, hits no more often and
misses no less; both serve any trace whose length is in range.
-/
theorem Lru.replies_nested {small large : Nat} (le : small ≤ large) {reqs : List Request}
    (units : ∀ req ∈ reqs, req.size = 1 ∧ req.ttl = none) :
    (∀ p q, replies (empty small 0) (reqs.map .get) = .ok p →
      replies (empty large 0) (reqs.map .get) = .ok q → Nested p q) ∧
    (IsWord reqs.length → (∃ p, replies (empty small 0) (reqs.map .get) = .ok p) ∧
      ∃ q, replies (empty large 0) (reqs.map .get) = .ok q) := by
  constructor
  · intro p q hp hq
    have shown := settles_replies_stack small units
    have shown' := settles_replies_stack large units
    rw [hp] at shown
    rw [hq] at shown'
    obtain ⟨answers, order⟩ := shown
    obtain ⟨answers', order'⟩ := shown'
    have hits := stackHits_mono le [] (reqs.map (·.id))
    rw [← answers, ← answers'] at hits
    constructor
    · rw [order, order']
      exact List.take_prefix_take_left le
    · exact hits
    · exact count_false_le hits
  · intro few
    have cost := Operation.sum_cost_of_units fun req hreq => (units req hreq).1
    have timely := Operation.timely_of_units fun req hreq => (units req hreq).2
    rw [← cost] at few
    exact ⟨exists_replies (exists_run few timely), exists_replies (exists_run few timely)⟩

theorem Lru.replies_nested_looped :
    ∃ p q, replies (empty 2 0) (([1, 2, 3, 1, 3, 2].map (Request.ofId · 1 0)).map .get) = .ok p ∧
      replies (empty 3 0) (([1, 2, 3, 1, 3, 2].map (Request.ofId · 1 0)).map .get) = .ok q ∧
      Nested p q := by
  have le : 2 ≤ 3 := by decide
  have units : ∀ req ∈ [1, 2, 3, 1, 3, 2].map (Request.ofId · 1 0), req.size = 1 ∧ req.ttl = none := by
    decide
  have nested := replies_nested le units
  obtain ⟨⟨p, hp⟩, ⟨q, hq⟩⟩ := nested.2 (by decide)
  exact ⟨p, q, hp, hq, nested.1 p q hp hq⟩

end CacheReplay
