set_option autoImplicit false

namespace CacheReplay.Floating

def ofNat (n : Nat) : Float := (UInt64.ofNat n).toFloat

def ofInt (n : Int) : Float := (Int64.ofInt n).toFloat

def ofNat32 (n : Nat) : Float32 := (UInt64.ofNat n).toFloat32

def ofInt32 (n : Int) : Float32 := (Int64.ofInt n).toFloat32

def toNat (x : Float) : Nat := x.toUInt64.toNat

def max (a b : Float) : Float := if a.isNaN || a < b then b else a

def min (a b : Float) : Float := if a.isNaN || b < a then b else a

def clamp (x low high : Float) : Float :=
  if x < low then low else if high < x then high else x

/-- The sum from left to right; an empty sum is negative zero. -/
def sum (xs : List Float) : Float := xs.foldl (· + ·) (-0.0)

def sum32 (xs : List Float32) : Float32 := xs.foldl (· + ·) (-0.0)

/-- A number whose natural order is the total order of floating-point numbers. -/
def orderKey (x : Float) : Nat :=
  let bits := x.toBits.toNat
  if bits < 0x8000000000000000 then bits + 0x8000000000000000 else 0xffffffffffffffff - bits

def totalLE (a b : Float) : Bool := orderKey a ≤ orderKey b

def orderKey32 (x : Float32) : Nat :=
  let bits := x.toBits.toNat
  if bits < 0x80000000 then bits + 0x80000000 else 0xffffffff - bits

def totalLE32 (a b : Float32) : Bool := orderKey32 a ≤ orderKey32 b

def max32 (a b : Float32) : Float32 := if a.isNaN || a < b then b else a

def min32 (a b : Float32) : Float32 := if a.isNaN || b < a then b else a

theorem totalLE_total (a b : Float) : totalLE a b || totalLE b a := by
  simp only [totalLE, Bool.or_eq_true, decide_eq_true_eq]
  exact Nat.le_total ..

theorem totalLE_trans (a b c : Float) (hab : totalLE a b = true) (hbc : totalLE b c = true) :
    totalLE a c = true := by
  simp only [totalLE, decide_eq_true_eq] at *
  exact Nat.le_trans hab hbc

theorem totalLE32_total (a b : Float32) : totalLE32 a b || totalLE32 b a := by
  simp only [totalLE32, Bool.or_eq_true, decide_eq_true_eq]
  exact Nat.le_total ..

theorem totalLE32_trans (a b c : Float32) (hab : totalLE32 a b = true) (hbc : totalLE32 b c = true) :
    totalLE32 a c = true := by
  simp only [totalLE32, decide_eq_true_eq] at *
  exact Nat.le_trans hab hbc

theorem orderKey_negZero_lt_zero : orderKey (-0.0) < orderKey 0.0 := by decide +kernel

end CacheReplay.Floating
