import CacheReplay.Decimal.Shortest

set_option autoImplicit false

namespace CacheReplay.Decimal

/-- Digits with a point before the last `-exponent` of them, or zeros behind them. -/
def Digits.positional (d : Digits) : String :=
  let text := toString d.digits
  if 0 ≤ d.exponent then text ++ String.ofList (List.replicate d.exponent.toNat '0')
  else
    let places := (-d.exponent).toNat
    let padded := List.replicate (places + 1 - text.length) '0' ++ text.toList
    let whole := padded.length - places
    String.ofList (padded.take whole) ++ "." ++ String.ofList (padded.drop whole)

def positional (x : Float) : String :=
  if x.isNaN then "NaN"
  else
    let bits := x.toBits
    let sign := if bits >>> 63 = 1 then "-" else ""
    let magnitude := bits &&& 0x7fffffffffffffff
    if magnitude = 0x7ff0000000000000 then sign ++ "inf"
    else if magnitude = 0 then sign ++ "0"
    else sign ++ (Dyadic.ofBits magnitude).shortest.positional

end CacheReplay.Decimal
