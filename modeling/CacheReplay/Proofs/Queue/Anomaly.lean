import CacheReplay.Proofs.Queue.Arrival

set_option autoImplicit false

/-!
# More room and more misses

A cache that keeps its objects in order of arrival can miss more often with more
room. For any two capacities less than nearly twice apart there are requests that
show it; for all others, and for the share of misses in general, the comparison of
lines carries over to the cache.
-/
namespace CacheReplay

/-- From one line to another, with so many misses. -/
structure Leads (capacity : Nat) (start ids : List Nat) (misses : Nat) (line : List Nat) : Prop where
  missed : lineMisses capacity start ids = misses
  reached : ids.foldl (joinLine capacity) start = line

namespace Leads
variable {capacity m n : Nat} {start ids rest line line' : List Nat}

theorem append (h : Leads capacity start ids m line) (h' : Leads capacity line rest n line') :
    Leads capacity start (ids ++ rest) (m + n) line' := by
  induction ids generalizing start m with
  | nil =>
    obtain ⟨rfl, rfl⟩ := h
    rwa [lineMisses, List.nil_append, Nat.zero_add]
  | cons id ids ih =>
    have tail := ih ⟨rfl, h.reached⟩
    constructor
    · rw [List.cons_append, lineMisses, tail.missed, ← Nat.add_assoc, ← h.missed]
      rfl
    · exact tail.reached

theorem of_hits (hits : ∀ id ∈ ids, id ∈ start) : Leads capacity start ids 0 start := by
  induction ids with
  | nil => exact ⟨rfl, rfl⟩
  | cons id ids ih =>
    have hit := hits id List.mem_cons_self
    have tail := ih fun x hx => hits x (List.mem_cons_of_mem id hx)
    constructor
    · rw [lineMisses, joinLine_of_mem hit, if_pos hit, tail.missed]
    · rw [List.foldl_cons, joinLine_of_mem hit, tail.reached]

theorem of_misses {a k : Nat} (full : start.length ≤ capacity)
    (gone : ∀ i < k, a + i ∉ start.take (capacity - i)) :
    Leads capacity start (List.range' a k) k (((List.range' a k).reverse ++ start).take capacity) := by
  induction k generalizing a start with
  | zero => exact ⟨rfl, (List.take_of_length_le full).symm⟩
  | succ k ih =>
    have miss : a ∉ start := by
      have first := gone 0 (by omega)
      rwa [Nat.sub_zero, List.take_of_length_le full] at first
    have later : ∀ i < k, a + 1 + i ∉ ((a :: start).take capacity).take (capacity - i) := by
      intro i hi back
      have next := gone (i + 1) (by omega)
      rw [List.take_take, Nat.min_eq_left (Nat.sub_le ..)] at back
      cases e : capacity - i with
      | zero => simp [e] at back
      | succ n =>
        rw [e, List.take_succ_cons, List.mem_cons] at back
        rw [show n = capacity - (i + 1) by omega, show a + 1 + i = a + (i + 1) by omega] at back
        exact back.elim (by omega) next
    have tail := ih (List.length_take_le ..) later
    rw [List.range'_succ]
    constructor
    · rw [lineMisses, joinLine_of_not_mem miss, if_neg miss, tail.missed, Nat.add_comm]
    · rw [List.foldl_cons, joinLine_of_not_mem miss, tail.reached, List.reverse_cons, List.append_assoc,
        List.singleton_append, List.take_append, List.take_append, List.take_take,
        Nat.min_eq_left (Nat.sub_le ..)]

end Leads

def fall (a k : Nat) : List Nat := (List.range' a k).reverse

section
variable {a k n x : Nat} {capacity : Nat} {start line : List Nat}

@[simp] theorem length_fall : (fall a k).length = k := by simp [fall]

@[simp] theorem mem_fall : x ∈ fall a k ↔ a ≤ x ∧ x < a + k := by
  rw [fall, List.mem_reverse, List.mem_range'_1]

theorem take_fall : (fall a k).take n = fall (a + (k - n)) (min n k) := by
  rw [fall, List.take_reverse, List.length_range', List.drop_range', fall, Nat.mul_one]
  congr 2
  omega

theorem fall_append (m : Nat) : fall (a + m) k ++ fall a m = fall a (m + k) := by
  rw [fall, fall, fall, ← List.reverse_append, List.range'_append_1]

theorem Leads.of_strangers (full : start.length ≤ capacity) (strangers : ∀ x ∈ start, x < a ∨ a + k ≤ x)
    (left : (fall a k ++ start).take capacity = line) : Leads capacity start (List.range' a k) k line := by
  rw [← left]
  apply Leads.of_misses full
  intro i hi back
  have := strangers _ (List.mem_of_mem_take back)
  omega

/-- A fall of objects is requested again, each when it has just left the line. -/
theorem Leads.of_fall {b : Nat} (before : a < b)
    (left : (fall a k ++ fall b capacity).take capacity = line) :
    Leads capacity (fall b capacity) (List.range' a k) k line := by
  rw [← left]
  apply Leads.of_misses
  · rw [length_fall]
  · intro i hi back
    rw [take_fall, mem_fall] at back
    omega

end

/--
After as many objects as the long line has places come those that leave the short
line in time to come in again; they outlive there the next objects, which push the
latest one out of the long line only.
-/
def closeTrace (small large : Nat) : List Nat :=
  List.range' 0 large ++ List.range' 0 (small - 1) ++ List.range' large 1 ++ List.range' 0 (small - 1) ++
    List.range' (large + 1) (large + 1 - small) ++ List.range' large 1

section
variable {small large : Nat} (lt : small < large) (near : large + 1 < 2 * small)
include lt near

theorem length_closeTrace : (closeTrace small large).length = 2 * large + small + 1 := by
  simp [closeTrace]
  omega

theorem lineMisses_closeTrace_large : lineMisses large [] (closeTrace small large) = 2 * large + 2 := by
  have fill : Leads large [] (List.range' 0 large) large (fall 0 large) := by
    apply Leads.of_strangers (Nat.zero_le _) (by simp)
    rw [List.append_nil, take_fall, Nat.sub_self, Nat.min_self]
  have again : Leads large (fall 0 large) (List.range' 0 (small - 1)) 0 (fall 0 large) := by
    apply Leads.of_hits
    intro x hx
    rw [List.mem_range'_1] at hx
    rw [mem_fall]
    omega
  have push : Leads large (fall 0 large) (List.range' large 1) 1 (fall 1 large) := by
    apply Leads.of_strangers (by simp) (by simp; omega)
    have joined := fall_append (a := 0) (k := 1) large
    rw [Nat.zero_add] at joined
    rw [joined, take_fall]
    congr 1 <;> omega
  have lag : Leads large (fall 1 large) (List.range' 0 (small - 1)) (small - 1)
      (fall 0 (small - 1) ++ fall small (large + 1 - small)) := by
    apply Leads.of_fall (Nat.zero_lt_one)
    rw [List.take_append, length_fall, take_fall, take_fall]
    congr 2 <;> omega
  have flush : Leads large (fall 0 (small - 1) ++ fall small (large + 1 - small))
      (List.range' (large + 1) (large + 1 - small)) (large + 1 - small)
      (fall (large + 1) (large + 1 - small) ++ fall 0 (small - 1)) := by
    apply Leads.of_strangers
    · simp
      omega
    · simp
      omega
    · rw [← List.append_assoc, List.take_append_of_le_length (by simp; omega), List.take_of_length_le]
      simp
      omega
  have last : Leads large (fall (large + 1) (large + 1 - small) ++ fall 0 (small - 1))
      (List.range' large 1) 1 _ :=
    Leads.of_strangers (by simp; omega) (by simp; omega) rfl
  have whole := fill.append again |>.append push |>.append lag |>.append flush |>.append last
  rw [closeTrace, whole.missed]
  omega

theorem lineMisses_closeTrace_small : lineMisses small [] (closeTrace small large) = 2 * large + 1 := by
  have fill : Leads small [] (List.range' 0 large) large (fall (large - small) small) := by
    apply Leads.of_strangers (Nat.zero_le _) (by simp)
    rw [List.append_nil, take_fall, Nat.zero_add, Nat.min_eq_left lt.le]
  have lag : Leads small (fall (large - small) small) (List.range' 0 (small - 1)) (small - 1)
      (fall 0 (small - 1) ++ fall (large - 1) 1) := by
    apply Leads.of_fall (by omega)
    rw [List.take_append, length_fall, take_fall, take_fall]
    congr 2 <;> omega
  have push : Leads small (fall 0 (small - 1) ++ fall (large - 1) 1) (List.range' large 1) 1
      (fall large 1 ++ fall 0 (small - 1)) := by
    apply Leads.of_strangers
    · simp
      omega
    · simp
      omega
    · rw [← List.append_assoc, List.take_append_of_le_length (by simp; omega), List.take_of_length_le]
      simp
      omega
  have again : Leads small (fall large 1 ++ fall 0 (small - 1)) (List.range' 0 (small - 1)) 0
      (fall large 1 ++ fall 0 (small - 1)) := by
    apply Leads.of_hits
    intro x hx
    rw [List.mem_range'_1] at hx
    simp
    omega
  have flush : Leads small (fall large 1 ++ fall 0 (small - 1))
      (List.range' (large + 1) (large + 1 - small)) (large + 1 - small)
      (fall large (large + 2 - small) ++ (fall 0 (small - 1)).take (2 * small - large - 2)) := by
    apply Leads.of_strangers
    · simp
      omega
    · simp
      omega
    · rw [← List.append_assoc, fall_append, List.take_append, List.take_of_length_le (by simp; omega),
        length_fall]
      congr 2 <;> omega
  have kept : ∀ x ∈ List.range' large 1,
      x ∈ fall large (large + 2 - small) ++ (fall 0 (small - 1)).take (2 * small - large - 2) := by
    intro x hx
    rw [List.mem_range'_1] at hx
    rw [List.mem_append, mem_fall]
    omega
  have whole := fill.append lag |>.append push |>.append again |>.append flush |>.append (.of_hits kept)
  rw [closeTrace, whole.missed]
  omega

/-- Unless one is nearly twice as long as the other, a longer line can miss more. -/
theorem lineMisses_lt_of_near :
    lineMisses small [] (closeTrace small large) < lineMisses large [] (closeTrace small large) := by
  rw [lineMisses_closeTrace_large lt near, lineMisses_closeTrace_small lt near]
  omega

end

namespace PlainQueue.Uniform
variable {q : PlainQueue} (u : q.Uniform)
include u

theorem get_inPlace {req : Request} (size : req.size = 1) (forever : req.ttl = none) :
    (q.get false req).1 = decide (req.id ∈ q.ids) ∧ (q.get false req).2.Uniform ∧
      (q.get false req).2.capacity = q.capacity ∧
      (q.get false req).2.ids = joinLine q.capacity q.ids req.id := by
  unfold PlainQueue.get check
  cases found : q.find? req.id with
  | none =>
    have missing : req.id ∉ q.ids := by
      intro h
      obtain ⟨e, he, same⟩ := List.mem_map.mp h
      exact List.find?_eq_none.mp found e he (beq_iff_eq.mpr same)
    have admitted := u.takeIn size forever
    rw [joinLine_of_not_mem missing]
    exact ⟨by simp [missing], admitted⟩
  | some e =>
    have he : e ∈ q.entries := List.mem_of_find?_eq_some found
    have same : e.id = req.id := by simpa using List.find?_some found
    have hit : req.id ∈ q.ids := same ▸ List.mem_map_of_mem he
    have fresh : e.expiredAt req.time = false := by
      rw [Entry.expiredAt, (u.unit e he).2]
      rfl
    rw [joinLine_of_mem hit]
    simp [fresh, hit, u]

theorem run_misses {reqs : List Request} (units : ∀ req ∈ reqs, req.size = 1 ∧ req.ttl = none) :
    (q.run false (reqs.map .get)).1.count false = lineMisses q.capacity q.ids (reqs.map (·.id)) := by
  induction reqs generalizing q with
  | nil => rfl
  | cons req reqs ih =>
    obtain ⟨size, forever⟩ := units req List.mem_cons_self
    obtain ⟨answer, uniform, capacity, order⟩ := u.get_inPlace size forever
    have rest := ih uniform fun r hr => units r (List.mem_cons_of_mem req hr)
    rw [capacity, order] at rest
    rw [List.map_cons, List.map_cons, PlainQueue.run, lineMisses, ← rest, Nat.add_comm]
    change ((q.get false req).1 :: _).count false = _
    rw [answer, List.count_cons]
    by_cases hit : req.id ∈ q.ids
    · simp [hit]
      rfl
    · simp [hit]
      rfl

end PlainQueue.Uniform

open EvictionPolicy

theorem Fifo.settles_replies_misses (capacity : Nat) {reqs : List Request}
    (units : ∀ req ∈ reqs, req.size = 1 ∧ req.ttl = none) :
    Settles .arithmetic (replies (empty capacity 0) (reqs.map .get)) fun p =>
      p.1.count false = lineMisses capacity [] (reqs.map (·.id)) := by
  have replied := settles_replies (t := .arithmetic) capacity 0 (reqs.map .get)
  have missed := (PlainQueue.uniform_empty capacity).run_misses units
  apply replied.mono
  intro p mirrored
  rw [mirrored.1]
  exact missed

theorem Fifo.exists_replies_units (capacity : Nat) {reqs : List Request}
    (units : ∀ req ∈ reqs, req.size = 1 ∧ req.ttl = none) (few : IsWord reqs.length) :
    ∃ p, replies (empty capacity 0) (reqs.map .get) = .ok p ∧
      p.1.count false = lineMisses capacity [] (reqs.map (·.id)) := by
  have cost := Operation.sum_cost_of_units fun req hreq => (units req hreq).1
  have timely := Operation.timely_of_units fun req hreq => (units req hreq).2
  rw [← cost] at few
  have served : ∃ r, run (empty capacity 0) (reqs.map .get) = .ok r := exists_run few timely
  obtain ⟨p, hp⟩ := exists_replies served
  have missed := settles_replies_misses capacity units
  rw [hp] at missed
  exact ⟨p, hp, missed⟩

/-- The misses of two caches beside each other, the second one the larger. -/
structure Fifo.Compared (small large : Nat) (p q : List Bool × Fifo) : Prop where
  monotone : small = large ∨ 2 * small ≤ large + 1 → q.1.count false ≤ p.1.count false
  share : 0 < small → (large + 1 - small) * q.1.count false ≤ large * p.1.count false

/--
Two caches serve the same requests for objects of one byte. The larger one misses
no more if it is the same or has nearly twice the room, and never more than its
share of what the smaller one misses; in between, some requests make it miss more.
-/
theorem Fifo.replies_compared {small large : Nat} (le : small ≤ large) :
    (∀ reqs : List Request, (∀ req ∈ reqs, req.size = 1 ∧ req.ttl = none) →
      (∀ p q, replies (empty small 0) (reqs.map .get) = .ok p →
        replies (empty large 0) (reqs.map .get) = .ok q → Compared small large p q) ∧
      (IsWord reqs.length → (∃ p, replies (empty small 0) (reqs.map .get) = .ok p) ∧
        ∃ q, replies (empty large 0) (reqs.map .get) = .ok q)) ∧
    (small ≠ large → large + 1 < 2 * small → IsWord (3 * large) →
      ∃ reqs : List Request, (∀ req ∈ reqs, req.size = 1 ∧ req.ttl = none) ∧
        ∃ p q, replies (empty small 0) (reqs.map .get) = .ok p ∧
          replies (empty large 0) (reqs.map .get) = .ok q ∧ p.1.count false < q.1.count false) := by
  constructor
  · intro reqs units
    constructor
    · intro p q hp hq
      have missed := settles_replies_misses small units
      have missed' := settles_replies_misses large units
      rw [hp] at missed
      rw [hq] at missed'
      have missed : p.1.count false = _ := missed
      have missed' : q.1.count false = _ := missed'
      constructor
      · rw [missed, missed']
        rintro (rfl | far)
        · exact Nat.le_refl _
        · exact lineMisses_le_of_far far _
      · rw [missed, missed']
        intro pos
        exact share_lineMisses_le le pos _
    · intro few
      obtain ⟨p, hp, _⟩ := exists_replies_units small units few
      obtain ⟨q, hq, _⟩ := exists_replies_units large units few
      exact ⟨⟨p, hp⟩, ⟨q, hq⟩⟩
  · intro ne near range
    have lt := Nat.lt_of_le_of_ne le ne
    have units : ∀ req ∈ (closeTrace small large).map (Request.ofId · 1 0), req.size = 1 ∧ req.ttl = none := by
      intro req hreq
      obtain ⟨id, -, rfl⟩ := List.mem_map.mp hreq
      exact ⟨rfl, rfl⟩
    have few : IsWord ((closeTrace small large).map (Request.ofId · 1 0)).length := by
      rw [List.length_map, length_closeTrace lt near]
      exact range.of_le (by omega)
    have ids : ((closeTrace small large).map (Request.ofId · 1 0)).map (·.id) = closeTrace small large := by
      rw [List.map_map]
      exact List.map_id _
    obtain ⟨p, hp, missed⟩ := exists_replies_units small units few
    obtain ⟨q, hq, missed'⟩ := exists_replies_units large units few
    refine ⟨_, units, p, q, hp, hq, ?_⟩
    rw [missed, missed', ids]
    exact lineMisses_lt_of_near lt near

theorem Fifo.replies_compared_looped :
    ∃ p q, replies (empty 2 0) (([1, 2, 3, 1, 3, 2].map (Request.ofId · 1 0)).map .get) = .ok p ∧
      replies (empty 3 0) (([1, 2, 3, 1, 3, 2].map (Request.ofId · 1 0)).map .get) = .ok q ∧
      Compared 2 3 p q := by
  have le : 2 ≤ 3 := by decide
  have units : ∀ req ∈ [1, 2, 3, 1, 3, 2].map (Request.ofId · 1 0), req.size = 1 ∧ req.ttl = none := by
    decide
  have compared := (replies_compared le).1 _ units
  obtain ⟨⟨p, hp⟩, ⟨q, hq⟩⟩ := compared.2 (by decide)
  exact ⟨p, q, hp, hq, compared.1 p q hp hq⟩

/-- A larger cache is not always the better one. -/
theorem Fifo.misses_not_antitone :
    ¬∀ (small large : Nat) (reqs : List Request), small ≤ large →
      (∀ req ∈ reqs, req.size = 1 ∧ req.ttl = none) → ∀ p q,
        replies (empty small 0) (reqs.map .get) = .ok p →
        replies (empty large 0) (reqs.map .get) = .ok q → q.1.count false ≤ p.1.count false := by
  intro antitone
  have units : ∀ req ∈ [1, 2, 3, 4, 1, 2, 5, 1, 2, 3, 4, 5].map (Request.ofId · 1 0),
      req.size = 1 ∧ req.ttl = none := by decide
  have few : IsWord ([1, 2, 3, 4, 1, 2, 5, 1, 2, 3, 4, 5].map (Request.ofId · 1 0)).length := by decide
  obtain ⟨p, hp, missed⟩ := exists_replies_units 3 units few
  obtain ⟨q, hq, missed'⟩ := exists_replies_units 4 units few
  have fewer := antitone 3 4 _ (by decide) units p q hp hq
  rw [missed, missed'] at fewer
  revert fewer
  decide

end CacheReplay
