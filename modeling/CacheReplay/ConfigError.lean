import CacheReplay.Decimal.Positional
import CacheReplay.Fault

set_option autoImplicit false

namespace CacheReplay

inductive ValueKind where
  | word
  | time
  | float
  | boolean
  | seed
  deriving Repr, DecidableEq

def ValueKind.phrase : ValueKind → String
  | .word => "a non-negative integer"
  | .time => "an integer"
  | .float => "a number"
  | .boolean => "a boolean"
  | .seed => "an unsigned integer"

inductive NamedChoice where
  | signal
  | labels
  | selection
  | buckets
  | score
  deriving Repr, DecidableEq

def NamedChoice.demand : NamedChoice → String
  | .signal => "parameter `type` must be one of learned, logOracle, itemOracle, twoOracle"
  | .labels => "parameter `train-source-y` must be online or oracle"
  | .selection => "parameter `selection` must be fifo, weighted-fifo, random or learned"
  | .buckets => "parameter `bucket-type` must be none or size"
  | .score => "parameter `obj-score` is not a known score"

inductive ConfigError where
  | notAssignment (item : String)
  | emptyKey (item : String)
  | duplicateKey (key : String)
  | wrongValue (key : String) (kind : ValueKind) (text : String)
  | notFinite (key : String) (value : Float)
  | unsupported (policy key : String)
  | unknownName (choice : NamedChoice) (text : String)
  | unknownPolicy (text : String)
  | counterBits (bits : Nat)
  | segmentSize (size : Nat)
  | mergeCount (count : Nat)
  | retainedPerSegment (size count : Nat)
  | retained (size count : Nat)
  | rankInterval (value : Float)
  | fallbackFraction (value : Float)
  | retrainInterval (seconds : Int)
  | warmup (seconds : Int)
  | trainingRows (rows : Nat)
  | zeroCapacity
  | zeroStep

def ConfigError.message : ConfigError → String
  | .notAssignment item => s!"parameter `{item}` is not of the form key=value"
  | .emptyKey item => s!"parameter `{item}` has an empty key"
  | .duplicateKey key => s!"parameter `{key}` given twice"
  | .wrongValue key kind text => s!"parameter `{key}` must be {kind.phrase}, got `{text}`"
  | .notFinite key value => s!"parameter `{key}` must be finite, got {Decimal.positional value}"
  | .unsupported policy key => s!"{policy} does not support parameter `{key}`"
  | .unknownName choice text => s!"{choice.demand}, got `{text}`"
  | .unknownPolicy text => s!"unknown eviction policy `{text}`"
  | .counterBits bits => s!"n-bit-counter must be in 1..={maxCounterBits}, got {bits}"
  | .segmentSize size => s!"segment-size must be greater than 1, got {size}"
  | .mergeCount count => s!"n-merge must be in 2..=100, got {count}"
  | .retainedPerSegment size count =>
    s!"segment-size / n-merge must be greater than 1, got {size} / {count}"
  | .retained size count => s!"n-retain must be in 1..={size}, got {count}"
  | .rankInterval value => s!"rank-intvl must be in (0, 1), got {Decimal.positional value}"
  | .fallbackFraction value =>
    s!"rank-fallback-frac must be in (0, 1], got {Decimal.positional value}"
  | .retrainInterval seconds => s!"retrain-intvl must be positive, got {seconds}"
  | .warmup seconds => s!"warmup-rtime must not be negative, got {seconds}"
  | .trainingRows rows => s!"max-training-rows must be at least 10, got {rows}"
  | .zeroCapacity => "cache capacity must be positive"
  | .zeroStep => "step size must be positive"

end CacheReplay
