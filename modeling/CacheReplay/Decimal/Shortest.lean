set_option autoImplicit false

/-!
# Shortest decimals

The decimal that identifies a floating-point value: of the decimals that round
to the value, one with the fewest digits, and of those the nearest. All
comparisons are between exact natural numbers.
-/
namespace CacheReplay.Decimal

def pow2 (e : Int) : Nat := Nat.pow 2 e.toNat

def pow10 (e : Int) : Nat := Nat.pow 10 e.toNat

structure Dyadic where
  mantissa : Nat
  exponent : Int
  /-- The gap to the value below is half the gap to the value above. -/
  narrowBelow : Bool
  deriving Repr, DecidableEq

def Dyadic.ofBits (bits : UInt64) : Dyadic :=
  let e := ((bits >>> 52) &&& 0x7ff).toNat
  let f := (bits &&& 0xfffffffffffff).toNat
  if e = 0 then ⟨f, -1074, false⟩ else ⟨0x10000000000000 + f, (e : Int) - 1075, f == 0 && 1 < e⟩

structure Digits where
  digits : Nat
  exponent : Int
  deriving Repr, DecidableEq

def compareScaled (a : Nat) (i : Int) (b : Nat) (j : Int) : Ordering :=
  compare (a * pow2 i * pow10 (-j)) (b * pow10 j * pow2 (-i))

/--
Whether `d` lies among the reals that round to `x`, to nearest and ties to
even: between the midpoints to the two neighbours, ends included when the
mantissa is even.
-/
def Dyadic.readsBack (x : Dyadic) (d : Digits) : Bool :=
  let low := 4 * x.mantissa - (if x.narrowBelow then 1 else 2)
  let high := 4 * x.mantissa + 2
  let ends := x.mantissa % 2 == 0
  let below := compareScaled low (x.exponent - 2) d.digits d.exponent
  let above := compareScaled high (x.exponent - 2) d.digits d.exponent
  (below == .lt || (ends && below == .eq)) && (above == .gt || (ends && above == .eq))

def Dyadic.floorTo (x : Dyadic) (unit : Int) : Nat :=
  x.mantissa * pow2 x.exponent * pow10 (-unit) / (pow10 unit * pow2 (-x.exponent))

def Dyadic.scale (x : Dyadic) : Int :=
  let guess := (x.mantissa.log2 + x.exponent) * 1233 / 4096
  if compareScaled x.mantissa x.exponent 1 guess == .lt then guess
  else if compareScaled x.mantissa x.exponent 1 (guess + 1) == .lt then guess + 1
  else guess + 2

def Dyadic.onGrid? (x : Dyadic) (unit : Int) : Option Digits :=
  let n := x.floorTo unit
  let below : Digits := ⟨n, unit⟩
  let above : Digits := ⟨n + 1, unit⟩
  match x.readsBack below, x.readsBack above with
  | true, true =>
    if compareScaled (2 * x.mantissa) x.exponent (2 * n + 1) unit == .lt then some below
    else some above
  | true, false => some below
  | false, true => some above
  | false, false => none

def Digits.strip : Nat → Digits → Digits
  | 0, d => d
  | fuel + 1, d =>
    if d.digits % 10 = 0 ∧ d.digits ≠ 0 then
      strip fuel ⟨d.digits / 10, d.exponent + 1⟩
    else d

def Dyadic.exact (x : Dyadic) : Digits :=
  ⟨x.mantissa * pow2 x.exponent * Nat.pow 5 (-x.exponent).toNat, min x.exponent 0⟩

/-- Tries one digit, then two and so on; seventeen always suffice. -/
def Dyadic.shortest (x : Dyadic) : Digits :=
  let k := x.scale
  let found := (List.range 17).findSome? fun n => x.onGrid? (k - (n + 1 : Nat))
  (found.getD x.exact).strip 800

end CacheReplay.Decimal
