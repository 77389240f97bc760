import CacheReplay.Proofs.Queue.Line
import CacheReplay.Proofs.Queue.Resolution
import Mathlib

set_option autoImplicit false

namespace CacheReplay
open EvictionPolicy

namespace Sieve

/-- Where the hand rests in the line. -/
def seat (c : Sieve) : Nat := c.hand.elim 0 fun i => c.queue.line.findIdx fun e => e.1 == i

/-- The objects as a sweep meets them. -/
def round (c : Sieve) : List (Slot × Record Bool) :=
  c.queue.line.drop c.seat ++ c.queue.line.take c.seat

/-- What a sweep passes by: the objects in front of the first one without a mark. -/
def passed (c : Sieve) : List Slot := (c.round.takeWhile (·.2.tag)).map Prod.fst

/-- Where a sweep ends: at the first object without a mark, else where it began. -/
def stop (c : Sieve) : Option (Slot × Record Bool) :=
  (c.round.find? fun e => !e.2.tag).or c.round.head?

def cleared (e : Slot × Record Bool) : Slot × Record Bool := (e.1, { e.2 with tag := false })

def clearing (met : List Slot) (e : Slot × Record Bool) : Slot × Record Bool :=
  if e.1 ∈ met then cleared e else e

/-- A sweep has dropped an object from a queue; what is left, and where the hand rests. -/
structure Swept (q : ObjectQueue Bool) (e : Slot × Record Bool) (l : List (Slot × Record Bool))
    (hand : Option Slot) (p : Bool × Sieve) : Prop where
  done : p.1 = true
  line : p.2.queue.line = l
  hand : p.2.hand = hand
  account : p.2.queue.account = q.account.released e.2.size
  caches : ∀ id, p.2.queue.store.caches id = true ↔ q.store.caches id = true ∧ id ≠ e.2.id

theorem Swept.of_steady {q q' : ObjectQueue Bool} {e : Slot × Record Bool} {l : List (Slot × Record Bool)}
    {hand : Option Slot} {p : Bool × Sieve} (h : Swept q' e l hand p) (steady : q.Steady q') :
    Swept q e l hand p where
  done := h.done
  line := h.line
  hand := h.hand
  account := steady.account ▸ h.account
  caches id := steady.caches_eq id ▸ h.caches id

/-- The handle that a sweep meets next: of the objects ahead or, if there are none, of the line. -/
def next (ahead line : List (Slot × Record Bool)) : Option Slot := ((ahead ++ line).map Prod.fst).head?

theorem next_congr {ahead line line' : List (Slot × Record Bool)}
    (same : line'.map Prod.fst = line.map Prod.fst) : next ahead line' = next ahead line := by
  rw [next, next, List.map_append, same, ← List.map_append]

section
variable {c : Sieve} {l r before after : List (Slot × Record Bool)} {e : Slot × Record Bool}

theorem map_fst_cleared : (before ++ cleared e :: after).map Prod.fst =
    (before ++ e :: after).map Prod.fst := by
  simp [cleared]

theorem advance_eq (lined : c.queue.Lined (before ++ e :: after)) :
    c.advance e.1 = next after (before ++ e :: after) := by
  rw [advance, lined.prevOf_eq, lined.back_eq, next, List.head?_map, ← Option.map_or, ← List.head?_append]

theorem sweep_marked (lined : c.queue.Lined (before ++ e :: after)) (marked : e.2.tag = true) :
    ∃ q, q.Lined (before ++ cleared e :: after) ∧ c.queue.Steady q ∧ ∀ steps,
      sweep (steps + 1) c (some e.1) = sweep steps ⟨q, c.hand⟩ (next after (before ++ e :: after)) := by
  obtain ⟨u, hu, -, tag⟩ := lined.exists_tag (e := e) (by simp)
  have mark : u.tag = true := tag.trans marked
  have lined' := lined.retag false
  refine ⟨_, lined', ⟨rfl, rfl⟩, fun steps => ?_⟩
  have step := advance_eq (c := ⟨_, c.hand⟩) (e := cleared e) lined'
  rw [next_congr map_fst_cleared] at step
  rw [sweep, hu, Option.any_some, if_pos mark]
  dsimp only
  rw [show Sieve.advance _ e.1 = _ from step]

theorem yields_sweep_drop (lined : c.queue.Lined (before ++ e :: after)) (clear : e.2.tag = false)
    (steps : Nat) : Yields (sweep steps c (some e.1))
      (Swept c.queue e (before ++ after) (after.head?.map Prod.fst)) := by
  obtain ⟨u, hu, -, tag⟩ := lined.exists_tag (e := e) (by simp)
  have mark : u.tag = false := tag.trans clear
  unfold sweep
  rw [hu, Option.any_some, mark, if_neg Bool.false_ne_true]
  dsimp only
  rw [lined.prevOf_eq]
  apply yields_bind lined.yields_drop
  intro q dropped
  exact yields_pure ⟨rfl, dropped.1.line_eq, rfl, dropped.2.1, dropped.2.2⟩

theorem sweep_pass (lined : c.queue.Lined (before ++ (l ++ r))) (marked : ∀ x ∈ l, x.2.tag = true) :
    ∃ q, q.Lined (before ++ (l.map cleared ++ r)) ∧ c.queue.Steady q ∧ ∀ steps,
      sweep (l.length + steps) c (next (l ++ r) (before ++ (l ++ r))) =
        sweep steps ⟨q, c.hand⟩ (next r (before ++ (l ++ r))) := by
  induction l generalizing before c with
  | nil => exact ⟨c.queue, lined, .refl _, fun steps => by rw [List.length_nil, Nat.zero_add]; rfl⟩
  | cons e l ih =>
    rw [List.cons_append] at lined ⊢
    obtain ⟨q, lined', steady, step⟩ := sweep_marked lined (marked e List.mem_cons_self)
    rw [List.append_cons] at lined'
    obtain ⟨q', lined'', later, steps⟩ := ih (c := ⟨q, c.hand⟩) lined'
      fun x hx => marked x (List.mem_cons_of_mem e hx)
    refine ⟨q', by simpa using lined'', steady.trans later, fun more => ?_⟩
    have rest := steps more
    rw [← List.append_cons, next_congr map_fst_cleared, next_congr map_fst_cleared] at rest
    rw [show (e :: l).length + more = l.length + more + 1 by simp; omega]
    exact (step _).trans rest

theorem yields_sweep_straight (lined : c.queue.Lined (before ++ (l ++ e :: r)))
    (marked : ∀ x ∈ l, x.2.tag = true) (clear : e.2.tag = false) (steps : Nat) :
    Yields (sweep (l.length + steps) c (next (l ++ e :: r) (before ++ (l ++ e :: r))))
      (Swept c.queue e (before ++ l.map cleared ++ r) (r.head?.map Prod.fst)) := by
  obtain ⟨q, lined', steady, steps_eq⟩ := sweep_pass lined marked
  rw [← List.append_assoc] at lined'
  rw [steps_eq]
  exact (yields_sweep_drop (c := ⟨q, c.hand⟩) lined' clear steps).mono fun p done => done.of_steady steady

theorem yields_sweep_wrap (lined : c.queue.Lined (before ++ after))
    (met : ∀ x ∈ after, x.2.tag = true) (split : before ++ after.map cleared = l ++ e :: r)
    (marked : ∀ x ∈ l, x.2.tag = true) (clear : e.2.tag = false) (steps : Nat) :
    Yields (sweep (after.length + (l.length + steps)) c (next after (before ++ after)))
      (Swept c.queue e (l.map cleared ++ r) (r.head?.map Prod.fst)) := by
  obtain ⟨q, lined', steady, steps_eq⟩ := sweep_pass (r := []) (by rwa [List.append_nil]) met
  rw [List.append_nil, split] at lined'
  rw [List.append_nil] at steps_eq
  have same : (l ++ e :: r).map Prod.fst = (before ++ after).map Prod.fst := by
    rw [← split]
    simp [cleared, Function.comp_def]
  have back : next [] (before ++ after) = next (l ++ e :: r) ([] ++ (l ++ e :: r)) := by
    rw [next, next, List.nil_append, ← same, List.nil_append, List.map_append]
    cases l <;> rfl
  rw [steps_eq, back]
  have straight := yields_sweep_straight (c := ⟨q, c.hand⟩)
    (show q.Lined ([] ++ (l ++ e :: r)) from lined') marked clear steps
  exact straight.mono fun p done => done.of_steady steady

theorem passed_of_clear (split : c.round = l ++ e :: r) (marked : ∀ x ∈ l, x.2.tag = true)
    (clear : e.2.tag = false) : c.passed = l.map Prod.fst ∧ c.stop = some e := by
  have met : (l ++ e :: r).takeWhile (·.2.tag) = l := by
    rw [List.takeWhile_append_of_pos marked, List.takeWhile_cons, clear, if_neg Bool.false_ne_true,
      List.append_nil]
  have first : (l ++ e :: r).find? (fun e => !e.2.tag) = some e := by
    rw [List.find?_eq_some_iff_append]
    exact ⟨by simp [clear], l, r, rfl, fun x hx => by simp [marked x hx]⟩
  rw [passed, stop, split, met, first]
  exact ⟨rfl, rfl⟩

/-- Where all objects are marked, the sweep comes back to its start. -/
theorem passed_of_marked (marked : ∀ x ∈ c.round, x.2.tag = true) :
    c.passed = c.round.map Prod.fst ∧ c.stop = c.round.head? := by
  have met : c.round.takeWhile (·.2.tag) = c.round := List.takeWhile_eq_self_iff.mpr marked
  have first : c.round.find? (fun e => !e.2.tag) = none := by
    rw [List.find?_eq_none]
    exact fun x hx => by simp [marked x hx]
  rw [passed, stop, met, first]
  exact ⟨rfl, rfl⟩

theorem clearing_eq (lined : c.queue.Lined r) (part : l ⊆ r) {x : Slot × Record Bool} (hx : x ∈ r) :
    (x ∈ l → clearing (l.map Prod.fst) x = cleared x) ∧ (x ∉ l → clearing (l.map Prod.fst) x = x) := by
  refine ⟨fun met => if_pos (List.mem_map_of_mem met), fun apart => if_neg fun met => apart ?_⟩
  obtain ⟨y, hy, same⟩ := List.mem_map.mp met
  have record := lined.record y (part hy)
  rw [same, lined.record x hx] at record
  rwa [Prod.ext same.symm (Option.some.inj record)]

theorem Sound.seat_hand (k : c.Sound) {i : Slot} (hand : c.hand = some i) :
    ∃ e, c.queue.line[c.seat]? = some e ∧ e.1 = i := by
  obtain ⟨s, h⟩ := k.kept.holds
  have lined := h.lined
  obtain ⟨r, hr⟩ := k.hand i hand
  have listed : i ∈ c.queue.line.map Prod.fst := List.mem_reverse.mp ((lined.holds.mem i).mpr ⟨r, hr⟩)
  obtain ⟨e, he, rfl⟩ := List.mem_map.mp listed
  have place : c.seat = c.queue.line.findIdx fun x => x.1 == e.1 := by rw [seat, hand]; rfl
  have short : c.queue.line.findIdx (fun x => x.1 == e.1) < c.queue.line.length :=
    List.findIdx_lt_length_of_exists ⟨e, he, by simp⟩
  have same := List.findIdx_getElem (w := short)
  rw [place]
  exact ⟨_, List.getElem?_eq_getElem short, by simpa using same⟩

theorem Sound.seat_lt (k : c.Sound) (some : c.queue.line ≠ []) : c.seat < c.queue.line.length := by
  cases hand : c.hand with
  | none =>
    rw [seat, hand]
    exact List.length_pos_iff.mpr some
  | some i =>
    obtain ⟨e, he, -⟩ := k.seat_hand hand
    exact (List.getElem?_eq_some_iff.mp he).1

theorem Sound.start_eq (k : c.Sound) : c.start = next (c.queue.line.drop c.seat) c.queue.line := by
  obtain ⟨s, h⟩ := k.kept.holds
  cases hand : c.hand with
  | none =>
    rw [start, hand, seat, hand, Option.none_or, h.lined.back_eq, next]
    cases c.queue.line <;> rfl
  | some i =>
    obtain ⟨e, he, rfl⟩ := k.seat_hand hand
    obtain ⟨short, found⟩ := List.getElem?_eq_some_iff.mp he
    rw [start, hand, Option.some_or, List.drop_eq_getElem_cons short, found]
    rfl

theorem map_clearing_of_apart (lined : c.queue.Lined r) (part : l ⊆ r)
    (sub : ∀ x ∈ before, x ∈ r ∧ x ∉ l) : before.map (clearing (l.map Prod.fst)) = before := by
  conv_rhs => rw [← List.map_id before]
  exact List.map_congr_left fun x hx => (clearing_eq lined part (sub x hx).1).2 (sub x hx).2

theorem map_clearing_of_met (lined : c.queue.Lined r) (part : l ⊆ r)
    (sub : ∀ x ∈ before, x ∈ r ∧ x ∈ l) : before.map (clearing (l.map Prod.fst)) = before.map cleared :=
  List.map_congr_left fun x hx => (clearing_eq lined part (sub x hx).1).1 (sub x hx).2

section
variable {behind ahead : List (Slot × Record Bool)} (lined : c.queue.Lined (behind ++ ahead))
  (round : c.round = ahead ++ behind)
include lined round

theorem yields_evict_straight (split : ahead = l ++ e :: r) (marked : ∀ x ∈ l, x.2.tag = true)
    (clear : e.2.tag = false) : c.stop = some e ∧
      Yields (sweep (behind ++ ahead).length c (next ahead (behind ++ ahead)))
        (Swept c.queue e ((behind ++ l ++ r).map (clearing c.passed)) (r.head?.map Prod.fst)) := by
  subst split
  obtain ⟨passed, stop⟩ := passed_of_clear (r := r ++ behind) (by rw [round]; simp) marked clear
  have nodup := List.Nodup.of_map _ lined.nodup
  have part : l ⊆ behind ++ (l ++ e :: r) := by simp
  have line : (behind ++ l ++ r).map (clearing c.passed) = behind ++ l.map cleared ++ r := by
    rw [List.map_append, List.map_append, passed, map_clearing_of_apart lined part,
      map_clearing_of_met lined part, map_clearing_of_apart lined part] <;>
    grind [List.nodup_append]
  have steps : (behind ++ (l ++ e :: r)).length = l.length + (behind.length + (r.length + 1)) := by
    simp only [List.length_append, List.length_cons]
    omega
  rw [line, steps]
  exact ⟨stop, yields_sweep_straight lined marked clear _⟩

theorem yields_evict_wrapped (met : ∀ x ∈ ahead, x.2.tag = true) (split : behind = l ++ e :: r)
    (marked : ∀ x ∈ l, x.2.tag = true) (clear : e.2.tag = false) : c.stop = some e ∧
      Yields (sweep (behind ++ ahead).length c (next ahead (behind ++ ahead)))
        (Swept c.queue e ((l ++ (r ++ ahead)).map (clearing c.passed))
          ((r ++ ahead).head?.map Prod.fst)) := by
  subst split
  obtain ⟨passed, stop⟩ := passed_of_clear (l := ahead ++ l) (e := e) (r := r) (by rw [round]; simp)
    (by grind) clear
  have nodup := List.Nodup.of_map _ lined.nodup
  have part : ahead ++ l ⊆ l ++ e :: r ++ ahead := by grind
  have line : (l ++ (r ++ ahead)).map (clearing c.passed) = l.map cleared ++ (r ++ ahead.map cleared) := by
    rw [List.map_append, List.map_append, passed, map_clearing_of_met lined part,
      map_clearing_of_apart lined part, map_clearing_of_met lined part] <;>
    grind [List.nodup_append]
  have steps : (l ++ e :: r ++ ahead).length = ahead.length + (l.length + (r.length + 1)) := by
    simp only [List.length_append, List.length_cons]
    omega
  have hand : (r ++ ahead).head?.map Prod.fst = (r ++ ahead.map cleared).head?.map Prod.fst := by
    cases r <;> cases ahead <;> rfl
  rw [line, steps, hand]
  exact ⟨stop, yields_sweep_wrap lined met (by simp) marked clear _⟩

theorem yields_evict_around (met : ∀ x ∈ ahead, x.2.tag = true) (split : ahead = e :: r)
    (marked : ∀ x ∈ behind, x.2.tag = true) : c.stop = some e ∧
      Yields (sweep (behind ++ ahead).length c (next ahead (behind ++ ahead)))
        (Swept c.queue e ((behind ++ r).map (clearing c.passed)) (r.head?.map Prod.fst)) := by
  subst split
  obtain ⟨passed, stop⟩ := passed_of_marked (c := c) (by grind)
  have part : c.round ⊆ behind ++ e :: r := by
    rw [round]
    simp
  have line : (behind ++ r).map (clearing c.passed) = behind.map cleared ++ r.map cleared := by
    rw [List.map_append, passed, map_clearing_of_met lined part, map_clearing_of_met lined part] <;>
    grind
  have steps : (behind ++ e :: r).length = (e :: r).length + (behind.length + 0) := by
    simp only [List.length_append, List.length_cons]
    omega
  have hand : r.head?.map Prod.fst = (r.map cleared).head?.map Prod.fst := by
    cases r <;> rfl
  rw [line, steps, hand, stop, round]
  have swept := yields_sweep_wrap (l := behind) (e := cleared e) (r := r.map cleared) lined met rfl
    marked rfl 0
  exact ⟨rfl, swept.mono fun p done => ⟨done.done, done.line, done.hand, done.account, done.caches⟩⟩

end

/-- The hand splits the line in two, and a sweep meets the second part first. -/
theorem Sound.exists_parts (k : c.Sound) (some : c.queue.line ≠ []) : ∃ behind ahead,
    c.queue.line = behind ++ ahead ∧ c.round = ahead ++ behind ∧ ahead ≠ [] ∧
      c.start = next ahead (behind ++ ahead) := by
  have short := k.seat_lt some
  refine ⟨c.queue.line.take c.seat, c.queue.line.drop c.seat, ?_, rfl, ?_, ?_⟩
  · rw [List.take_append_drop]
  · rw [Ne, List.drop_eq_nil_iff]
    exact Nat.not_le_of_lt short
  · rw [List.take_append_drop, k.start_eq]

theorem Sound.yields_evict_swept (k : c.Sound) (some : c.queue.line ≠ []) : ∃ before e after,
    c.queue.line = before ++ e :: after ∧ c.stop = .some e ∧ Yields c.evict
      (Swept c.queue e ((before ++ after).map (clearing c.passed)) (after.head?.map Prod.fst)) := by
  obtain ⟨s, h⟩ := k.kept.holds
  obtain ⟨behind, ahead, whole, round, filled, start⟩ := k.exists_parts some
  have lined := h.lined
  rw [whole] at lined ⊢
  rw [evict, start, lined.length_eq]
  cases found : ahead.find? (fun e => !e.2.tag) with
  | some e =>
    obtain ⟨clear, l, r, split, marked⟩ := List.find?_eq_some_iff_append.mp found
    have swept := yields_evict_straight lined round split (by simpa using marked) (by simpa using clear)
    exact ⟨behind ++ l, e, r, by rw [split, List.append_assoc], swept⟩
  | none =>
    have met : ∀ x ∈ ahead, x.2.tag = true := by simpa using found
    cases again : behind.find? (fun e => !e.2.tag) with
    | some e =>
      obtain ⟨clear, l, r, split, marked⟩ := List.find?_eq_some_iff_append.mp again
      have swept := yields_evict_wrapped lined round met split (by simpa using marked) (by simpa using clear)
      exact ⟨l, e, r ++ ahead, by rw [split, List.append_assoc, List.cons_append], swept⟩
    | none =>
      obtain ⟨e, r, split⟩ := List.exists_cons_of_ne_nil filled
      have swept := yields_evict_around lined round met split (by simpa using again)
      exact ⟨behind, e, r, by rw [split], swept⟩

theorem unvisitedFrom_pass (lined : c.queue.Lined (before ++ (l ++ r))) (steps : Nat) :
    (next (l ++ r) (before ++ (l ++ r))).bind (c.unvisitedFrom (l.length + steps)) =
      ((l.find? fun e => !e.2.tag).map (·.2.id)).or
        ((next r (before ++ (l ++ r))).bind (c.unvisitedFrom steps)) := by
  induction l generalizing before with
  | nil =>
    rw [List.length_nil, Nat.zero_add]
    rfl
  | cons e l ih =>
    rw [List.cons_append] at lined ⊢
    obtain ⟨u, hu, id, tag⟩ := lined.exists_tag (e := e) (by simp)
    have first : next (e :: (l ++ r)) (before ++ e :: (l ++ r)) = some e.1 := rfl
    have rest := ih (show c.queue.Lined (before ++ [e] ++ (l ++ r)) by rwa [← List.append_cons])
    rw [← List.append_cons] at rest
    rw [first, show (e :: l).length + steps = l.length + steps + 1 by simp; omega, Option.bind_some,
      unvisitedFrom, hu, List.find?_cons]
    cases mark : e.2.tag with
    | true => simpa [show u.tag = true from tag.trans mark, advance_eq lined] using rest
    | false => simpa [show u.tag = false from tag.trans mark] using id

/-- What is named to go is where the sweep ends. -/
theorem Sound.victim_eq (k : c.Sound) (some : c.queue.line ≠ []) : c.victim = c.stop.map (·.2.id) := by
  obtain ⟨s, h⟩ := k.kept.holds
  obtain ⟨behind, ahead, whole, round, filled, start⟩ := k.exists_parts some
  have lined := h.lined
  rw [whole] at lined
  obtain ⟨e, rest, split⟩ := List.exists_cons_of_ne_nil filled
  obtain ⟨u, hu, id, -⟩ := lined.exists_tag (e := e) (by simp [split])
  have first : next ahead (behind ++ ahead) = .some e.1 := by
    rw [split]
    rfl
  have back : next [] (behind ++ ahead) = next (behind ++ ahead) ([] ++ (behind ++ ahead)) := by
    rw [next, next]
    cases behind <;> cases ahead <;> rfl
  have once := unvisitedFrom_pass (r := []) (by rwa [List.append_nil]) behind.length
  have again := unvisitedFrom_pass (show c.queue.Lined ([] ++ (behind ++ ahead)) from lined) 0
  rw [Nat.add_zero, ← back] at again
  rw [List.append_nil, again, first, Option.bind_some] at once
  have around : (behind ++ ahead).length = ahead.length + behind.length := by
    rw [List.length_append, Nat.add_comm]
  rw [victim, start, first, Option.bind_some, lined.length_eq, around, once, hu, stop, round,
    List.find?_append, split]
  simp [unvisitedFrom, next, id]

/--
Whatever a run has done before, the hand rests on no object or on one of the line.
An eviction drops the first object without a mark that it meets from the hand on,
or the one at the hand if all are marked, which is the one that was named before.
What it met before loses its mark; nothing else changes, and the hand ends at the
neighbour of the dropped object toward the front.
-/
theorem run_evicts_unmarked (capacity overhead : Nat) (ops : List Operation) :
    Settles .arithmetic (run (empty capacity overhead) ops) fun c =>
      (∀ i, c.hand = some i → ∃ e, c.queue.line[c.seat]? = some e ∧ e.1 = i) ∧
      (c.queue.line ≠ [] → ∃ before e after,
        c.queue.line = before ++ e :: after ∧ c.stop = some e ∧ ∀ req,
          EvictionPolicy.victim c req = pure (some e.2.id) ∧
          Yields (EvictionPolicy.evict c req)
            (Swept c.queue e ((before ++ after).map (clearing c.passed)) (after.head?.map Prod.fst))) := by
  apply (dependable.settles_run _ ops (sound_empty capacity overhead)).mono
  intro c k
  refine ⟨fun i hand => k.seat_hand hand, fun some => ?_⟩
  obtain ⟨before, e, after, split, stop, evicted⟩ := k.yields_evict_swept some
  refine ⟨before, e, after, split, stop, fun req => ⟨?_, evicted⟩⟩
  show pure c.victim = (pure (Option.some e.2.id) : Audit (Option Nat))
  rw [k.victim_eq some, stop]
  rfl

/-- From the hand on, a sweep meets a marked object at the front and goes on to the back. -/
theorem run_evicts_unmarked_wrapping : ∃ c, run (empty 9 0) [.get (.ofId 1 1 0), .get (.ofId 2 2 0),
      .get (.ofId 3 3 0), .get (.ofId 1 1 0), .evict (.ofId 4 1 1), .get (.ofId 3 3 2)] = .ok c ∧
    (c.seat, c.queue.line.map fun e => (e.2.id, e.2.tag)) = (1, [(1, false), (3, true)]) ∧
    ∃ before e after, c.queue.line = before ++ e :: after ∧ c.stop = some e ∧ ∀ req,
      Yields (EvictionPolicy.evict c req)
        (Swept c.queue e ((before ++ after).map (clearing c.passed)) (after.head?.map Prod.fst)) := by
  have reached := yields_of_toOption (x := run (empty 9 0) [.get (.ofId 1 1 0), .get (.ofId 2 2 0),
    .get (.ofId 3 3 0), .get (.ofId 1 1 0), .evict (.ofId 4 1 1), .get (.ofId 3 3 2)])
    (f := fun c => (c.seat, c.queue.line.map fun e => (e.2.id, e.2.tag)))
    (b := (1, [(1, false), (3, true)])) (by cbv)
  obtain ⟨c, e, line, -, evicts⟩ := reached.and (run_evicts_unmarked 9 0 _)
  have some : c.queue.line ≠ [] := by
    intro none
    simp [none] at line
  obtain ⟨before, stopped, after, split, stop, done⟩ := evicts some
  exact ⟨c, e, line, before, stopped, after, split, stop, fun req => (done req).2⟩

end
end Sieve
end CacheReplay
