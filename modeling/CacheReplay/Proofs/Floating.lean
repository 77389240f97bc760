import CacheReplay.Floating
import Mathlib.Algebra.Ring.Int.Defs
import Mathlib.Algebra.Ring.Nat
import Mathlib.Tactic.SplitIfs

set_option autoImplicit false

namespace CacheReplay.Floating
open Float.Model Float.Model.UnpackedFloat

/-- The bits below the sign, counted with the sign. -/
def rank (x : Float) : Int :=
  let bits : Nat := x.toBits.toNat
  if bits < 2 ^ 63 then bits else 2 ^ 63 - bits

/-- A number whose bits are the sign and, below it, `n`. -/
inductive Reads : UnpackedFloat → Sign → Nat → Prop where
  | infinity (s : Sign) : Reads (.infinity s) s (2047 * 2 ^ 52)
  | zero (s : Sign) : Reads (.zero s) s 0
  | finite (s : Sign) {m e : Nat} (pos : 0 < m) (lt : m < 2 ^ 53) (normal : e = 0 ∨ 2 ^ 52 ≤ m)
      (le : e ≤ 2045) : Reads (.finite s m (e - 1074) pos) s (e * 2 ^ 52 + m)

/-- Comparing exponents before significands compares the bits that hold both. -/
theorem lexicographic_eq {m m' e e' : Nat} (lt : m < 2 ^ 53) (lt' : m' < 2 ^ 53)
    (normal : e = 0 ∨ 2 ^ 52 ≤ m) (normal' : e' = 0 ∨ 2 ^ 52 ≤ m') :
    (compare ((e : Int) - 1074) (e' - 1074)).then (compare m m') =
      compare ((e * 2 ^ 52 + m : Nat) : Int) ((e' * 2 ^ 52 + m' : Nat) : Int) := by
  rcases Nat.lt_trichotomy e e' with less | rfl | more
  · rw [Int.compare_eq_lt.mpr (by omega), Int.compare_eq_lt.mpr (by omega)]
    rfl
  · rw [Int.compare_eq_eq.mpr rfl, Ordering.eq_then]
    rcases Nat.lt_trichotomy m m' with less | rfl | more
    · rw [Nat.compare_eq_lt.mpr less, Int.compare_eq_lt.mpr (by omega)]
    · rw [Nat.compare_eq_eq.mpr rfl, Int.compare_eq_eq.mpr rfl]
    · rw [Nat.compare_eq_gt.mpr more, Int.compare_eq_gt.mpr (by omega)]
  · rw [Int.compare_eq_gt.mpr (by omega), Int.compare_eq_gt.mpr (by omega)]
    rfl

theorem compare_neg (a b : Int) : compare (-a) (-b) = (compare a b).swap := by
  rw [Int.compare_swap]
  rcases Int.lt_trichotomy a b with less | rfl | more
  · rw [Int.compare_eq_gt.mpr (by omega), Int.compare_eq_gt.mpr less]
  · rw [Int.compare_eq_eq.mpr rfl, Int.compare_eq_eq.mpr rfl]
  · rw [Int.compare_eq_lt.mpr (by omega), Int.compare_eq_lt.mpr more]

/-- Numbers compare as their magnitudes do, by sign. -/
theorem compare_of_reads {u v : UnpackedFloat} {s s' : Sign} {n n' : Nat} (h : Reads u s n)
    (h' : Reads v s' n') : u.compare v = some (compare (s.apply n) (s'.apply n')) := by
  have less : ∀ {a b : Int}, a < b → some Ordering.lt = some (compare a b) := fun h =>
    congrArg some (Int.compare_eq_lt.mpr h).symm
  have more : ∀ {a b : Int}, b < a → some Ordering.gt = some (compare a b) := fun h =>
    congrArg some (Int.compare_eq_gt.mpr h).symm
  cases h with
  | infinity =>
    cases h' with
    | infinity => cases s <;> cases s' <;> decide
    | zero | finite =>
      cases s with
      | negative => exact less (by cases s' <;> simp only [Sign.apply] <;> omega)
      | positive => exact more (by cases s' <;> simp only [Sign.apply] <;> omega)
  | zero =>
    cases h' with
    | zero => cases s <;> cases s' <;> rfl
    | infinity | finite =>
      cases s' with
      | negative => exact more (by cases s <;> simp only [Sign.apply] <;> omega)
      | positive => exact less (by cases s <;> simp only [Sign.apply] <;> omega)
  | finite _ pos lt normal le =>
    cases h' with
    | infinity =>
      cases s' with
      | negative => exact more (by cases s <;> simp only [Sign.apply] <;> omega)
      | positive => exact less (by cases s <;> simp only [Sign.apply] <;> omega)
    | zero =>
      cases s with
      | negative => exact less (by cases s' <;> simp only [Sign.apply] <;> omega)
      | positive => exact more (by cases s' <;> simp only [Sign.apply] <;> omega)
    | finite _ pos' lt' normal' le' =>
      have ordered := lexicographic_eq lt lt' normal normal'
      cases s with
      | negative =>
        cases s' with
        | negative => exact congrArg some ((congrArg Ordering.swap ordered).trans (compare_neg _ _).symm)
        | positive => exact less (by simp only [Sign.apply]; omega)
      | positive =>
        cases s' with
        | negative => exact more (by simp only [Sign.apply]; omega)
        | positive => exact congrArg some ordered

theorem Reads.le {u : UnpackedFloat} {s : Sign} {n : Nat} (h : Reads u s n) : n ≤ 2047 * 2 ^ 52 := by
  cases h <;> omega

theorem Reads.of_exponent (s : Sign) {m e : Nat} {exponent : Int} (pos : 0 < m) (h : exponent = e - 1074)
    (lt : m < 2 ^ 53) (normal : e = 0 ∨ 2 ^ 52 ≤ m) (le : e ≤ 2045) :
    Reads (.finite s m exponent pos) s (e * 2 ^ 52 + m) := by
  subst h
  exact .finite s pos lt normal le

def exponentField (x : Float) : BitVec 11 := @unpackExponent .binary64 x.toBits.toBitVec

def mantissaField (x : Float) : BitVec 52 := @unpackMantissa .binary64 x.toBits.toBitVec

def signOf (x : Float) : Sign := .ofBitVec (@unpackSign .binary64 x.toBits.toBitVec)

theorem toNat_exponentField (x : Float) : (exponentField x).toNat = x.toBits.toNat / 2 ^ 52 % 2 ^ 11 := by
  rw [exponentField, unpackExponent, BitVec.toNat_cast, BitVec.extractLsb_toNat, Nat.shiftRight_eq_div_pow]
  rfl

theorem toNat_mantissaField (x : Float) : (mantissaField x).toNat = x.toBits.toNat % 2 ^ 52 := by
  rw [mantissaField, unpackMantissa, BitVec.toNat_cast, BitVec.extractLsb_toNat, Nat.shiftRight_eq_div_pow]
  exact congrArg (· % 2 ^ 52) (Nat.div_one _)

theorem toNat_significand (x : Float) : (1#1 ++ mantissaField x).toNat = 2 ^ 52 + (mantissaField x).toNat := by
  rw [BitVec.toNat_append, ← Nat.shiftLeft_add_eq_or_of_lt (mantissaField x).isLt]
  rfl

/-- The rank is made of the three fields. -/
theorem rank_eq_apply (x : Float) : rank x =
    (signOf x).apply ((exponentField x).toNat * 2 ^ 52 + (mantissaField x).toNat : Nat) := by
  have small := x.toBits.toNat_lt
  have sign : (@unpackSign .binary64 x.toBits.toBitVec).toNat = x.toBits.toNat / 2 ^ 63 % 2 := by
    change (BitVec.cast _ (x.toBits.toBitVec.extractLsb 63 63)).toNat = _
    rw [BitVec.toNat_cast, BitVec.extractLsb_toNat, Nat.shiftRight_eq_div_pow]
    rfl
  have whole : (exponentField x).toNat * 2 ^ 52 + (mantissaField x).toNat = x.toBits.toNat % 2 ^ 63 := by
    rw [toNat_exponentField, toNat_mantissaField]
    omega
  rw [whole]
  unfold rank signOf Sign.ofBitVec
  dsimp only
  by_cases positive : x.toBits.toNat < 2 ^ 63
  · rw [if_pos positive, if_pos (BitVec.eq_of_toNat_eq (by rw [sign]; simp; omega))]
    exact congrArg Int.ofNat (Nat.mod_eq_of_lt positive).symm
  · have negative : @unpackSign .binary64 x.toBits.toBitVec ≠ 0#1 := by
      intro zero
      rw [zero] at sign
      simp at sign
      omega
    rw [if_neg positive, if_neg negative, Sign.apply]
    omega

def powerOf (x : Float) : Int :=
  (exponentField x).toNat - (Format.binary64.exponentBias + Format.binary64.mantissaBitsWithoutImplicit)

theorem powerOf_eq (x : Float) : powerOf x = (exponentField x).toNat - 1075 := rfl

theorem unpack_eq (x : Float) : x.toModel.unpack =
    if exponentField x = -1#11 then
      if mantissaField x = 0#52 then .infinity (signOf x) else .notANumber
    else if exponentField x = 0#11 then
      if zero : mantissaField x = 0#52 then .zero (signOf x)
      else .finite (signOf x) (mantissaField x).toNat (powerOf x + 1)
        (Nat.pos_of_ne_zero fun e => zero (BitVec.eq_of_toNat_eq e))
    else .finite (signOf x) (1#1 ++ mantissaField x).toNat (powerOf x)
      (by rw [toNat_significand]; omega) := rfl

section reads
variable {x : Float}

theorem reads_of_top (top : exponentField x = -1#11) (number : x.isNaN = false) :
    ∃ s n, Reads x.toModel.unpack s n ∧ rank x = s.apply n := by
  change x.toModel.unpack.isNaN = false at number
  rw [unpack_eq, if_pos top] at number ⊢
  by_cases none : mantissaField x = 0#52
  · rw [if_pos none]
    refine ⟨_, _, .infinity _, ?_⟩
    rw [rank_eq_apply, top, none]
    rfl
  · rw [if_neg none] at number
    cases number

theorem reads_of_first (first : exponentField x = 0#11) :
    ∃ s n, Reads x.toModel.unpack s n ∧ rank x = s.apply n := by
  rw [unpack_eq, if_neg (by rw [first]; decide), if_pos first, rank_eq_apply]
  by_cases zero : mantissaField x = 0#52
  · rw [dif_pos zero]
    refine ⟨_, _, .zero _, ?_⟩
    rw [first, zero]
    rfl
  · rw [dif_neg zero]
    have small := (mantissaField x).isLt
    refine ⟨_, _, .of_exponent _ _ ?_ ?_ (.inl rfl) (Nat.zero_le _), by rw [first]; rfl⟩
    · rw [powerOf_eq, first]
      rfl
    · omega

theorem reads_of_normal (top : exponentField x ≠ -1#11) (first : exponentField x ≠ 0#11) :
    ∃ s n, Reads x.toModel.unpack s n ∧ rank x = s.apply n := by
  have below : (exponentField x).toNat ≠ 2047 := fun e => top (BitVec.eq_of_toNat_eq e)
  obtain ⟨e, he⟩ := Nat.exists_eq_succ_of_ne_zero fun e => first (BitVec.eq_of_toNat_eq e)
  have range := (exponentField x).isLt
  have small := (mantissaField x).isLt
  have implied := toNat_significand x
  rw [unpack_eq, if_neg top, if_neg first, rank_eq_apply]
  have whole : (exponentField x).toNat * 2 ^ 52 + (mantissaField x).toNat =
      e * 2 ^ 52 + (1#1 ++ mantissaField x).toNat := by omega
  rw [whole]
  refine ⟨_, _, .of_exponent _ _ ?_ ?_ (.inr ?_) ?_, rfl⟩
  · rw [powerOf_eq, he]
    omega
  · omega
  · omega
  · omega

theorem reads_unpack (number : x.isNaN = false) : ∃ s n, Reads x.toModel.unpack s n ∧ rank x = s.apply n := by
  by_cases top : exponentField x = -1#11
  · exact reads_of_top top number
  · by_cases first : exponentField x = 0#11
    · exact reads_of_first first
    · exact reads_of_normal top first

end reads

theorem neg_le_rank {x : Float} (number : x.isNaN = false) : -(2047 * 2 ^ 52) ≤ rank x := by
  obtain ⟨s, n, reads, e⟩ := reads_unpack number
  have most := reads.le
  rw [e]
  cases s <;> simp only [Sign.apply] <;> omega

theorem compare_eq_rank {a b : Float} (ha : a.isNaN = false) (hb : b.isNaN = false) :
    a.toModel.unpack.compare b.toModel.unpack = some (compare (rank a) (rank b)) := by
  obtain ⟨s, n, reads, e⟩ := reads_unpack ha
  obtain ⟨s', n', reads', e'⟩ := reads_unpack hb
  rw [e, e', compare_of_reads reads reads']

theorem le_iff_rank {a b : Float} (ha : a.isNaN = false) (hb : b.isNaN = false) :
    a ≤ b ↔ rank a ≤ rank b := by
  change a.le b = true ↔ _
  rw [Float.le, decide_eq_true_iff]
  change (a.toModel.unpack.compare b.toModel.unpack).any (·.isLE) = true ↔ _
  rw [compare_eq_rank ha hb, Option.any_some, Int.isLE_compare]

theorem lt_iff_rank {a b : Float} (ha : a.isNaN = false) (hb : b.isNaN = false) :
    a < b ↔ rank a < rank b := by
  change a.lt b = true ↔ _
  rw [Float.lt, decide_eq_true_iff]
  change (a.toModel.unpack.compare b.toModel.unpack == some .lt) = true ↔ _
  rw [compare_eq_rank ha hb, beq_iff_eq, Option.some.injEq, Int.compare_eq_lt]

theorem rank_le_of_totalLE {a b : Float} (h : totalLE a b = true) : rank a ≤ rank b := by
  have small := a.toBits.toNat_lt
  have small' := b.toBits.toNat_lt
  rw [totalLE, decide_eq_true_iff] at h
  simp only [rank]
  simp only [orderKey] at h
  split_ifs at h ⊢ <;> omega

theorem number_of_lt {a b : Float} (h : a < b) : a.isNaN = false ∧ b.isNaN = false := by
  change a.lt b = true at h
  rw [Float.lt, decide_eq_true_iff] at h
  change (a.toModel.unpack.compare b.toModel.unpack == some .lt) = true at h
  change a.toModel.unpack.isNaN = false ∧ b.toModel.unpack.isNaN = false
  rw [beq_iff_eq] at h
  generalize a.toModel.unpack = u at h ⊢
  generalize b.toModel.unpack = v at h ⊢
  cases u with
  | notANumber => cases h
  | infinity | zero | finite =>
    cases v with
    | notANumber => cases h
    | infinity | zero | finite => exact ⟨rfl, rfl⟩

/-- The total order never contradicts the usual one. -/
theorem not_lt_of_totalLE {a b : Float} (h : totalLE a b = true) : ¬b < a := by
  intro lt
  obtain ⟨hb, ha⟩ := number_of_lt lt
  exact absurd ((lt_iff_rank hb ha).mp lt) (Int.not_lt.mpr (rank_le_of_totalLE h))

end CacheReplay.Floating
