import CacheReplay.Word

set_option autoImplicit false

namespace CacheReplay.GLCache

def windowCount : Nat := 8

structure Track where
  counts : List Nat
  opened : Int
  deriving Repr, DecidableEq

namespace Track

def start (now : Int) : Track := ⟨List.replicate windowCount 0, now⟩

def due (t : Track) (width now : Int) : Checked Bool := do
  let elapsed ← subTime now t.opened
  pure (decide (0 < elapsed.tdiv width))

def shift (t : Track) (now : Int) : Track := ⟨0 :: t.counts.take (windowCount - 1), now⟩

def bump (t : Track) : Checked Track :=
  match t.counts with
  | [] => pure t
  | n :: ns => do
    let n ← addCount n 1
    pure { t with counts := n :: ns }

theorem shift_length {t : Track} (h : t.counts.length = windowCount) (now : Int) :
    (t.shift now).counts.length = windowCount := by
  simp [shift, h, windowCount]

end Track

structure HitWindows where
  minute : Track
  tenMinutes : Track
  hour : Track
  deriving Repr, DecidableEq

namespace HitWindows

def start (now : Int) : HitWindows := ⟨.start now, .start now, .start now⟩

/-- Ends every window that a hit at `now` finds over, the finest first. -/
def advance (w : HitWindows) (now : Int) : Checked HitWindows := do
  if !(← w.minute.due 60 now) then return w
  let w := { w with minute := w.minute.shift now }
  if !(← w.tenMinutes.due 600 now) then return w
  let w := { w with tenMinutes := w.tenMinutes.shift now }
  if !(← w.hour.due 3600 now) then return w
  return { w with hour := w.hour.shift now }

def recordHit (w : HitWindows) (now : Int) : Checked HitWindows := do
  let w ← w.advance now
  let minute ← w.minute.bump
  let tenMinutes ← w.tenMinutes.bump
  let hour ← w.hour.bump
  pure ⟨minute, tenMinutes, hour⟩

end HitWindows
end CacheReplay.GLCache
