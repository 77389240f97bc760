import CacheReplay.Floating
import CacheReplay.GLCache.Segment
import CacheReplay.Regression.Data

set_option autoImplicit false

namespace CacheReplay.GLCache

def featureCount : Nat := 6 + 3 * windowCount

def HitWindows.interleaved (w : HitWindows) : List Nat :=
  (List.range windowCount).flatMap fun k =>
    [w.minute, w.tenMinutes, w.hour].map fun t => t.counts[k]?.getD 0

def Segment.meanBytes (s : Segment) : Float32 :=
  if s.objects.isEmpty then 0 else Floating.ofNat32 s.bytes / Floating.ofNat32 s.objects.size

def Segment.features (s : Segment) (time : Int) : Checked Regression.Row := do
  let age ← subTime time s.createTime
  let described := [Floating.ofInt32 age, s.meanBytes, Floating.ofNat32 s.hits,
    Floating.ofNat32 s.active, s.rates.requests.toFloat32, s.rates.misses.toFloat32]
  pure (described ++ s.windows.interleaved.map Floating.ofNat32).toArray

theorem HitWindows.interleaved_length (w : HitWindows) :
    w.interleaved.length = 3 * windowCount := by
  simp [interleaved, windowCount, List.range, List.range.loop]

theorem Segment.size_of_features_eq_ok {s : Segment} {time : Int} {row : Regression.Row}
    (h : s.features time = .ok row) : row.size = featureCount := by
  unfold features at h
  cases e : subTime time s.createTime with
  | error f => rw [e] at h; cases h
  | ok age =>
    rw [e] at h
    cases h
    simp [HitWindows.interleaved_length, featureCount]
    omega

end CacheReplay.GLCache
