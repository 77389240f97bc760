set_option autoImplicit false

namespace CacheReplay.Randomness

def rotateLeft (x : UInt64) (n : UInt64) : UInt64 := (x <<< n) ||| (x >>> (64 - n))

def mix (x : UInt64) : UInt64 :=
  let z := (x ^^^ (x >>> 30)) * 0xbf58476d1ce4e5b9
  let z := (z ^^^ (z >>> 27)) * 0x94d049bb133111eb
  z ^^^ (z >>> 31)

def stride : UInt64 := 0x9e3779b97f4a7c15

def scramble (x : UInt64) : UInt64 := mix (x + stride)

structure Generator where
  s0 : UInt64
  s1 : UInt64
  s2 : UInt64
  s3 : UInt64
  deriving Repr, DecidableEq

namespace Generator

def ofSeed (seed : UInt64) : Generator :=
  ⟨scramble seed, scramble (seed + stride), scramble (seed + 2 * stride), scramble (seed + 3 * stride)⟩

def next (g : Generator) : UInt64 × Generator :=
  let out := rotateLeft (g.s0 + g.s3) 23 + g.s0
  let s2 := g.s2 ^^^ g.s0
  let s3 := g.s3 ^^^ g.s1
  (out, ⟨g.s0 ^^^ s3, g.s1 ^^^ s2, s2 ^^^ (g.s1 <<< 17), rotateLeft s3 45⟩)

def next32 (g : Generator) : UInt32 × Generator :=
  let (x, g) := g.next
  ((x >>> 32).toUInt32, g)

def nextUnit (g : Generator) : Float × Generator :=
  let (x, g) := g.next
  ((x >>> 11).toFloat * 1.1102230246251565e-16, g)

end Generator

/--
One draw below `range` from words of a given number of values: the upper half
of the product of a word and `range`. When the lower half is so close to the top
that a longer word could carry into it, a second word decides.
-/
def belowVia (bound : Nat) (draw : Generator → Nat × Generator) (range : Nat) (g : Generator) :
    Nat × Generator :=
  let (x, g) := draw g
  let high := x * range / bound
  let low := x * range % bound
  if bound - range < low then
    let (y, g) := draw g
    (if bound ≤ low + y * range / bound then high + 1 else high, g)
  else (high, g)

/-- The carry of the second word cannot reach `range`, for the two lower halves together stay below. -/
theorem belowVia_lt {bound range : Nat} {draw : Generator → Nat × Generator}
    (hdraw : ∀ g, (draw g).1 < bound) (hrange : 0 < range) (g : Generator) :
    (belowVia bound draw range g).1 < range := by
  have hbound : 0 < bound := Nat.zero_lt_of_lt (hdraw g)
  have share_lt : ∀ g, (draw g).1 * range / bound < range := fun g => by
    rw [Nat.div_lt_iff_lt_mul hbound, Nat.mul_comm]
    exact Nat.mul_lt_mul_of_pos_left (hdraw g) hrange
  simp only [belowVia]
  split
  · split
    · rename_i hcarry
      have hsplit := Nat.div_add_mod ((draw g).1 * range) bound
      have hle : (draw g).1 * range ≤ (bound - 1) * range :=
        Nat.mul_le_mul_right range (Nat.le_sub_one_of_lt (hdraw g))
      have hpred : (bound - 1) * range + range = bound * range := by
        rw [← Nat.succ_mul, Nat.succ_eq_add_one, Nat.sub_add_cancel hbound]
      have hsecond := share_lt (draw g).2
      have hmul : bound * ((draw g).1 * range / bound + 1) < bound * range := by
        rw [Nat.mul_add, Nat.mul_one]
        omega
      exact Nat.lt_of_mul_lt_mul_left hmul
    · exact share_lt g
  · exact share_lt g

namespace Generator

def below (range : Nat) : Generator → Nat × Generator :=
  belowVia 0x10000000000000000 (fun g => (g.next.1.toNat, g.next.2)) range

def below32 (range : Nat) : Generator → Nat × Generator :=
  belowVia 0x100000000 (fun g => (g.next32.1.toNat, g.next32.2)) range

theorem below_lt {range : Nat} (hrange : 0 < range) (g : Generator) : (below range g).1 < range :=
  belowVia_lt (fun g => g.next.1.toNat_lt) hrange g

theorem below32_lt {range : Nat} (hrange : 0 < range) (g : Generator) :
    (below32 range g).1 < range :=
  belowVia_lt (fun g => g.next32.1.toNat_lt) hrange g

end Generator
end CacheReplay.Randomness
