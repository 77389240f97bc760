import CacheReplay.Fault

set_option autoImplicit false

namespace CacheReplay

def wordBound : Nat := 0x10000000000000000

def countBound : Nat := 0x100000000

def timeBound : Int := 0x8000000000000000

def IsWord (n : Nat) : Prop := n < wordBound

instance (n : Nat) : Decidable (IsWord n) := inferInstanceAs (Decidable (n < wordBound))

def IsTime (t : Int) : Prop := -timeBound ≤ t ∧ t < timeBound

instance (t : Int) : Decidable (IsTime t) :=
  inferInstanceAs (Decidable (-timeBound ≤ t ∧ t < timeBound))

def addWord (a b : Nat) : Checked Nat :=
  if IsWord (a + b) then .ok (a + b) else .error .overflow

def addCount (a b : Nat) : Checked Nat :=
  if a + b < countBound then .ok (a + b) else .error .overflow

def subWord (a b : Nat) : Checked Nat :=
  if b ≤ a then .ok (a - b) else .error .overflow

def mulWord (a b : Nat) : Checked Nat :=
  if IsWord (a * b) then .ok (a * b) else .error .overflow

def divWord (a b : Nat) : Checked Nat :=
  if b = 0 then .error .dividedByZero else .ok (a / b)

def modWord (a b : Nat) : Checked Nat :=
  if b = 0 then .error .dividedByZero else .ok (a % b)

def clampWord (n low high : Nat) : Checked Nat :=
  if high < low then .error .crossedBounds else .ok (min (max n low) high)

/-- The time with the bits of a word; the words of the upper half are negative times. -/
@[irreducible]
def timeOfWord (n : Nat) : Int := if n < 0x8000000000000000 then n else n - wordBound

def addTime (a b : Int) : Checked Int :=
  if IsTime (a + b) then .ok (a + b) else .error .overflow

def subTime (a b : Int) : Checked Int :=
  if IsTime (a - b) then .ok (a - b) else .error .overflow

theorem timeOfWord_of_isTime {n : Nat} (time : IsTime n) : timeOfWord n = n := by
  have upper := time.2
  unfold timeBound at upper
  unfold timeOfWord
  exact if_pos (by omega)

theorem addWord_eq_ok_iff (a b c : Nat) : addWord a b = .ok c ↔ c = a + b ∧ IsWord c := by
  unfold addWord
  split
  · simp only [Except.ok.injEq]
    constructor
    · rintro rfl; exact ⟨rfl, by assumption⟩
    · rintro ⟨rfl, -⟩; rfl
  · simp only [reduceCtorEq, false_iff, not_and]
    rintro rfl; assumption

theorem subWord_eq_ok_iff (a b c : Nat) : subWord a b = .ok c ↔ a = b + c := by
  unfold subWord
  split
  · simp only [Except.ok.injEq]; omega
  · simp only [reduceCtorEq, false_iff]; omega

theorem mulWord_eq_ok_iff (a b c : Nat) : mulWord a b = .ok c ↔ c = a * b ∧ IsWord c := by
  unfold mulWord
  split
  · simp only [Except.ok.injEq]
    constructor
    · rintro rfl; exact ⟨rfl, by assumption⟩
    · rintro ⟨rfl, -⟩; rfl
  · simp only [reduceCtorEq, false_iff, not_and]
    rintro rfl; assumption

theorem addTime_eq_ok_iff (a b c : Int) : addTime a b = .ok c ↔ c = a + b ∧ IsTime c := by
  unfold addTime
  split
  · simp only [Except.ok.injEq]
    constructor
    · rintro rfl; exact ⟨rfl, by assumption⟩
    · rintro ⟨rfl, -⟩; rfl
  · simp only [reduceCtorEq, false_iff, not_and]
    rintro rfl; assumption

theorem subTime_eq_ok_iff (a b c : Int) : subTime a b = .ok c ↔ c = a - b ∧ IsTime c := by
  unfold subTime
  split
  · simp only [Except.ok.injEq]
    constructor
    · rintro rfl; exact ⟨rfl, by assumption⟩
    · rintro ⟨rfl, -⟩; rfl
  · simp only [reduceCtorEq, false_iff, not_and]
    rintro rfl; assumption

end CacheReplay
