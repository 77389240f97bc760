import CacheReplay.Word

set_option autoImplicit false

namespace CacheReplay.Decimal

def digit? (c : Char) : Option Nat := if c.isDigit then some (c.toNat - '0'.toNat) else none

def digits? (s : List Char) : Option Nat :=
  if s.isEmpty then none else s.foldlM (fun n c => (digit? c).map (10 * n + ·)) 0

def sign (s : List Char) : Bool × List Char :=
  match s with
  | '-' :: s => (true, s)
  | '+' :: s => (false, s)
  | s => (false, s)

def readInt? (s : String) : Option Int :=
  let (negative, s) := sign s.toList
  (digits? s).map fun n => if negative then -(n : Int) else n

def readTime? (s : String) : Option Int := (readInt? s).filter fun t => decide (IsTime t)

def readWord? (s : String) : Option Nat :=
  match s.toList with
  | '-' :: _ => none
  | _ => ((readInt? s).map Int.toNat).filter fun n => decide (IsWord n)

def scaled (mantissa : Nat) (exponent : Int) : Float :=
  let size := (toString mantissa).length + exponent
  if mantissa = 0 || size < -400 then 0
  else if 400 < size then 1 / 0
  else .ofScientific mantissa (decide (exponent < 0)) exponent.natAbs

/-- The exponent behind a mantissa: none, or a letter and a signed number. -/
def exponent? : List Char → Option Int
  | [] => some 0
  | c :: s =>
    if c = 'e' ∨ c = 'E' then
      let (negative, s) := sign s
      (digits? s).map fun n => if negative then -(n : Int) else n
    else none

def magnitude? (s : List Char) : Option Float := do
  let whole := s.takeWhile Char.isDigit
  let rest := s.dropWhile Char.isDigit
  let (fraction, rest) := match rest with
    | '.' :: rest => (rest.takeWhile Char.isDigit, rest.dropWhile Char.isDigit)
    | rest => ([], rest)
  let mantissa ← digits? (whole ++ fraction)
  let exponent ← exponent? rest
  pure (scaled mantissa (exponent - (fraction.length : Int)))

def readFloat? (s : String) : Option Float :=
  let (negative, s) := sign s.toList
  let magnitude :=
    match String.ofList (s.map Char.toLower) with
    | "inf" | "infinity" => some (1 / 0)
    | "nan" => some (0 / 0)
    | _ => magnitude? s
  magnitude.map fun x => if negative then -x else x

end CacheReplay.Decimal
