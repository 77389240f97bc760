import CacheReplay.Proofs.Chain

set_option autoImplicit false

namespace CacheReplay.Chain
variable {α : Type} [Linked α]

theorem walk_back_eq {a : Arena α} {after : Option Slot} {s : List Slot} (h : Threads a none s after)
    {steps : Nat} (hs : s.length ≤ steps) : a.walk false steps s.getLast? = s.reverse := by
  induction s using List.reverseRecOn generalizing after steps with
  | nil => cases steps <;> rfl
  | append_singleton s i ih =>
    obtain ⟨steps, rfl⟩ : ∃ k, steps = k + 1 := ⟨steps - 1, by simp at hs; omega⟩
    rw [threads_append] at h
    have last : a.links? i = some ⟨s.getLast?, after⟩ := by simpa using h.2.1
    have fits : s.length ≤ steps := by simpa using hs
    simp only [List.getLast?_append, List.getLast?_singleton, Option.some_or, Arena.walk, last,
      Bool.false_eq_true, if_false, List.reverse_append, List.reverse_singleton, List.singleton_append]
    rw [ih h.1 fits]

theorem Represents.toListRev_eq {c : Chain} {a : Arena α} {s : List Slot} (h : c.Represents a s) :
    c.toListRev a = s.reverse := by
  rw [toListRev, h.back_eq]
  exact walk_back_eq h.threads h.length_le

theorem conclude_of_inl {c : Chain} {a : Arena α} {t : Tour} {verdict : Bool}
    (e : c.inspect a t = .inl verdict) : c.conclude a t = verdict := by
  unfold conclude
  split
  · rename_i ended
    cases e.symm.trans ended
    rfl
  · rename_i going
    cases e.symm.trans going

theorem conclude_of_inr {c : Chain} {a : Arena α} {t u : Tour} (e : c.inspect a t = .inr u) :
    c.conclude a t = c.conclude a u := by
  rw [conclude]
  split
  · rename_i ended
    cases e.symm.trans ended
  · rename_i going
    cases e.symm.trans going
    rfl

/-- A validation that has come to `t` gives its verdict after so many more records. -/
inductive Ends (c : Chain) (a : Arena α) : Tour → Nat → Bool → Prop
  | now {t : Tour} {verdict : Bool} (ended : c.inspect a t = .inl verdict) : Ends c a t 0 verdict
  | later {t u : Tour} {n : Nat} {verdict : Bool} (going : c.inspect a t = .inr u)
      (rest : Ends c a u n verdict) : Ends c a t (n + 1) verdict

theorem exists_ends (c : Chain) (a : Arena α) (t : Tour) :
    ∃ n ≤ c.length - t.count, Ends c a t n (c.conclude a t) := by
  induction left : c.length - t.count using Nat.strongRecOn generalizing t with
  | ind left ih =>
    subst left
    cases e : c.inspect a t with
    | inl verdict =>
      rw [conclude_of_inl e]
      exact ⟨0, Nat.zero_le _, .now e⟩
    | inr u =>
      obtain ⟨i, next, -, -, -, -, within, rfl⟩ := inspect_eq_inr_iff.mp e
      obtain ⟨n, few, rest⟩ := ih (c.length - (t.count + 1)) (by omega)
        ⟨i :: t.seen, t.count + 1, some i, next⟩ rfl
      rw [conclude_of_inr e]
      exact ⟨n + 1, by omega, .later e rest⟩

/-- The records met so far hang together from the front on, and the chain goes on with `current`. -/
structure Trodden (c : Chain) (a : Arena α) (t : Tour) : Prop where
  nodup : t.seen.Nodup
  count_eq : t.count = t.seen.length
  before_eq : t.before = t.seen.head?
  front_eq : c.front = t.seen.getLast?.or t.current
  back_eq : t.current = none → c.back = t.seen.head?
  threads : Threads a none t.seen.reverse t.current

theorem trodden_tour {c : Chain} (a : Arena α) (ends : c.front = none → c.back = none) :
    c.Trodden a c.tour where
  nodup := List.nodup_nil
  count_eq := rfl
  before_eq := rfl
  front_eq := rfl
  back_eq := ends
  threads := trivial

namespace Trodden
variable {c : Chain} {a : Arena α} {t u : Tour}

theorem next (h : c.Trodden a t) (going : c.inspect a t = .inr u) : c.Trodden a u := by
  obtain ⟨i, next, current, fresh, links, last, -, rfl⟩ := inspect_eq_inr_iff.mp going
  obtain ⟨seen, count, before, _⟩ := t
  cases current
  dsimp only at fresh links
  have counted := h.count_eq
  refine ⟨List.nodup_cons.mpr ⟨fresh, h.nodup⟩, ?_, rfl, ?_, last, ?_⟩
  · dsimp only at counted ⊢
    rw [counted, List.length_cons]
  · rw [h.front_eq]
    cases seen with
    | nil => rfl
    | cons j seen => simp [List.getLast?_cons]
  · dsimp only
    rw [List.reverse_cons, threads_append, List.getLast?_reverse, Option.or_none, ← h.before_eq]
    exact ⟨h.threads, links, trivial⟩

/-- A validation that passes has met all records of the chain. -/
theorem represents (h : c.Trodden a t) (passed : c.conclude a t = true) :
    ∃ s, c.Represents a s := by
  obtain ⟨n, -, ends⟩ := exists_ends c a t
  rw [passed] at ends
  generalize verdict : true = v at ends
  induction ends with
  | @now t _ ended =>
    subst verdict
    have ending : t.current = none ∧ t.count = c.length := by
      unfold inspect at ended
      split at ended
      · rename_i none
        exact ⟨none, by simpa using ended⟩
      · repeat' split at ended
        all_goals cases ended
    have front := h.front_eq
    have threads := h.threads
    rw [ending.1] at front threads
    refine ⟨t.seen.reverse, (represents_iff ..).mpr ⟨List.nodup_reverse.mpr h.nodup, ?_, ?_, ?_, threads⟩⟩
    · rw [front, List.head?_reverse, Option.or_none]
    · rw [h.back_eq ending.1, List.getLast?_reverse]
    · rw [← ending.2, h.count_eq, List.length_reverse]
  | later going _ ih =>
    rw [conclude_of_inr going] at passed
    exact ih (h.next going) passed verdict

end Trodden

theorem Represents.conclude_eq {c : Chain} {a : Arena α} {s l r : List Slot} (h : c.Represents a s)
    (split : s = l ++ r) : c.conclude a ⟨l.reverse, l.length, l.getLast?, r.head?⟩ = true := by
  induction r generalizing l with
  | nil =>
    refine conclude_of_inl ?_
    simp [inspect, h.length_eq, split]
  | cons i r ih =>
    have fresh : i ∉ l := by
      have nodup := h.nodup
      rw [split, List.nodup_append] at nodup
      exact fun hi => nodup.2.2 i hi i List.mem_cons_self rfl
    have last : r.head? = none → c.back = some i := by
      intro none
      rw [List.head?_eq_none_iff] at none
      rw [h.back_eq, split, none, List.getLast?_append]
      rfl
    have within : l.length < c.length := by
      rw [h.length_eq, split, List.length_append, List.length_cons]
      omega
    have going : c.inspect a ⟨l.reverse, l.length, l.getLast?, some i⟩ =
        .inr ⟨(l ++ [i]).reverse, (l ++ [i]).length, (l ++ [i]).getLast?, r.head?⟩ := by
      refine inspect_eq_inr_iff.mpr ⟨i, r.head?, rfl, ?_, h.links?_at split, last, within, ?_⟩
      · simpa using fresh
      · simp
    rw [List.head?_cons, conclude_of_inr going]
    exact ih (by simp [split])

theorem Represents.validate_eq_true {c : Chain} {a : Arena α} {s : List Slot}
    (h : c.Represents a s) : c.validate a = true := by
  unfold validate
  cases s with
  | nil => simp [h.front_eq, h.back_eq, h.length_eq]
  | cons i s =>
    have ends : ¬(c.front = none ∨ c.back = none) := by
      simp [h.front_eq, h.back_eq, List.getLast?_cons]
    have started := h.conclude_eq (l := []) rfl
    rw [if_neg ends, tour, h.front_eq]
    exact started

theorem exists_represents {c : Chain} {a : Arena α} (passed : c.validate a = true) :
    ∃ s, c.Represents a s := by
  unfold validate at passed
  split at passed
  · rw [Bool.and_eq_true, Bool.and_eq_true, Option.isNone_iff_eq_none, Option.isNone_iff_eq_none,
      beq_iff_eq] at passed
    obtain ⟨⟨front, back⟩, length⟩ := passed
    exact ⟨[], (represents_iff ..).mpr ⟨List.nodup_nil, front, back, length, trivial⟩⟩
  · rename_i ends
    exact (trodden_tour a fun none => absurd (.inl none) ends).represents passed

/--
Whatever the ends and the length of a chain and the links in the arena are, a
validation ends, with no more records met than the chain claims to have, and
passes if and only if the chain represents a sequence. A walk from the front
meets that sequence and a walk from the back meets its reverse; both end there.
-/
theorem validate_exact (c : Chain) (a : Arena α) :
    (∀ t, ∃ n ≤ c.length - t.count, Ends c a t n (c.conclude a t)) ∧
    (c.validate a = true ↔ ∃ s, c.Represents a s) ∧
    ∀ s, c.Represents a s → c.toList a = s ∧ c.toListRev a = s.reverse ∧
      ∀ steps, s.length ≤ steps →
        a.walk true steps c.front = s ∧ a.walk false steps c.back = s.reverse := by
  refine ⟨c.exists_ends a, ⟨exists_represents, fun ⟨s, h⟩ => h.validate_eq_true⟩, fun s h => ?_⟩
  refine ⟨h.toList_eq, h.toListRev_eq, fun steps enough => ⟨?_, ?_⟩⟩
  · rw [h.front_eq]
    exact walk_eq h.threads enough
  · rw [h.back_eq]
    exact walk_back_eq h.threads enough

instance : Linked Links where
  links l := l
  withLinks _ l := l

/-- Two records that name each other, and a third one behind them that names itself. -/
def tangle : Arena Links :=
  ⟨#[.full ⟨none, some 1⟩, .full ⟨some 0, none⟩, .full ⟨none, some 2⟩], none, 3⟩

theorem validate_exact_pair : Represents ⟨some 0, some 1, 2⟩ tangle [0, 1] ∧
    toList ⟨some 0, some 1, 2⟩ tangle = [0, 1] ∧ toListRev ⟨some 0, some 1, 2⟩ tangle = [1, 0] := by
  have rep : Represents ⟨some 0, some 1, 2⟩ tangle [0, 1] :=
    (represents_iff ..).mpr ⟨by decide, rfl, rfl, rfl, rfl, rfl, trivial⟩
  obtain ⟨-, -, walks⟩ := validate_exact ⟨some 0, some 1, 2⟩ tangle
  obtain ⟨forward, backward, -⟩ := walks [0, 1] rep
  exact ⟨rep, forward, backward⟩

example : validate ⟨some 0, some 1, 3⟩ tangle = false ∧ validate ⟨some 2, some 2, 7⟩ tangle = false := by
  cbv

end CacheReplay.Chain
