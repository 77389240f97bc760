import CacheReplay.Params

set_option autoImplicit false

namespace CacheReplay.GLCache

/-- Which signal ranks segments and which one scores objects. -/
inductive Signal where
  /-- A trained model ranks, online scores retain. -/
  | learned
  /-- Future accesses rank, online scores retain. -/
  | logOracle
  /-- A trained model ranks, future accesses retain. -/
  | itemOracle
  /-- Future accesses rank and retain. -/
  | twoOracle
  deriving Repr, DecidableEq

inductive LabelSource where
  | online
  | oracle
  deriving Repr, DecidableEq

inductive Selection where
  | fifo
  | weightedFifo
  | random
  | learned
  deriving Repr, DecidableEq

inductive Buckets where
  | single
  | bySize
  deriving Repr, DecidableEq

inductive Score where
  | freq
  | freqByte
  | ageByte
  | freqAgeByte
  | freqAge
  | oracle
  deriving Repr, DecidableEq

def Signal.trained : Signal → Bool
  | .learned | .itemOracle => true
  | .logOracle | .twoOracle => false

def Signal.defaultScore : Signal → Score
  | .learned | .logOracle => .ageByte
  | .itemOracle | .twoOracle => .oracle

def Signal.ofName (text : String) : Except ConfigError Signal :=
  match Text.bare text with
  | "learned" => .ok .learned
  | "logoracle" => .ok .logOracle
  | "itemoracle" => .ok .itemOracle
  | "twooracle" => .ok .twoOracle
  | _ => .error (.unknownName .signal text)

def LabelSource.ofName (text : String) : Except ConfigError LabelSource :=
  match Text.folded text with
  | "online" => .ok .online
  | "oracle" => .ok .oracle
  | _ => .error (.unknownName .labels text)

def Selection.ofName (text : String) : Except ConfigError Selection :=
  match Text.plain text with
  | "fifo" => .ok .fifo
  | "weighted-fifo" => .ok .weightedFifo
  | "random" | "rand" => .ok .random
  | "learned" | "ranked" => .ok .learned
  | _ => .error (.unknownName .selection text)

def Buckets.ofName (text : String) : Except ConfigError Buckets :=
  match Text.folded text with
  | "none" | "no" => .ok .single
  | "size" => .ok .bySize
  | _ => .error (.unknownName .buckets text)

def Score.ofName (text : String) : Except ConfigError Score :=
  match Text.bare text with
  | "freq" => .ok .freq
  | "freqbyte" => .ok .freqByte
  | "agebyte" => .ok .ageByte
  | "freqagebyte" => .ok .freqAgeByte
  | "freqage" => .ok .freqAge
  | "oracle" => .ok .oracle
  | _ => .error (.unknownName .score text)

def Signal.label : Signal → String
  | .learned => "learned"
  | .logOracle => "logOracle"
  | .itemOracle => "itemOracle"
  | .twoOracle => "twoOracle"

structure Config where
  segmentSize : Nat
  mergeCount : Nat
  retain : Nat
  /-- The fraction of ranked segments that is used up before the next ranking. -/
  rankInterval : Float
  signal : Signal
  labels : LabelSource
  retrainInterval : Int
  consecutive : Bool
  selection : Option Selection
  score : Option Score
  buckets : Buckets
  /-- The fraction of a ranking after which an unmergeable segment is evicted alone. -/
  fallbackFraction : Float
  jitter : Bool
  maxRows : Nat
  warmup : Int
  utilityRetains : Bool
  labelSkipsRetained : Bool
  seed : Nat

namespace Config

def defaults : Config where
  segmentSize := 100
  mergeCount := 2
  retain := 100
  rankInterval := 0.05
  signal := .learned
  labels := .online
  retrainInterval := 172800
  consecutive := true
  selection := none
  score := none
  buckets := .single
  fallbackFraction := 0.8
  jitter := false
  maxRows := 8192
  warmup := 86400
  utilityRetains := false
  labelSkipsRetained := false
  seed := 0

def retainPerSegment (c : Config) : Nat := c.segmentSize / c.mergeCount

def objectScore (c : Config) : Score := c.score.getD c.signal.defaultScore

def validate (c : Config) : Except ConfigError Unit := do
  if c.segmentSize ≤ 1 then throw (.segmentSize c.segmentSize)
  if c.mergeCount ≤ 1 ∨ 100 < c.mergeCount then throw (.mergeCount c.mergeCount)
  if c.retainPerSegment ≤ 1 then throw (.retainedPerSegment c.segmentSize c.mergeCount)
  if c.retain = 0 ∨ c.segmentSize < c.retain then throw (.retained c.segmentSize c.retain)
  if !(0 < c.rankInterval && c.rankInterval < 1) then throw (.rankInterval c.rankInterval)
  if !(0 < c.fallbackFraction && c.fallbackFraction ≤ 1) then
    throw (.fallbackFraction c.fallbackFraction)
  if c.retrainInterval ≤ 0 then throw (.retrainInterval c.retrainInterval)
  if c.warmup < 0 then throw (.warmup c.warmup)
  if c.maxRows < 10 then throw (.trainingRows c.maxRows)

/-- Takes the settings one by one, where the number retained follows the segment size. -/
def settings : Params.Taking Config := do
  let d := defaults
  let segmentSize := (← Params.takeWord "segment-size").getD d.segmentSize
  let mergeCount := (← Params.takeWord "n-merge").getD d.mergeCount
  let retain := (← Params.takeWord "n-retain").getD segmentSize
  let rankInterval := (← Params.takeFloat "rank-intvl").getD d.rankInterval
  let signal := (← Params.takeAs "type" Signal.ofName).getD d.signal
  let labels := (← Params.takeAs "train-source-y" LabelSource.ofName).getD d.labels
  let retrainInterval := (← Params.takeTime "retrain-intvl").getD d.retrainInterval
  let consecutive := (← Params.takeFlag "merge-consecutive-segs").getD d.consecutive
  let selection ← Params.takeAs "selection" Selection.ofName
  let score ← Params.takeAs "obj-score" Score.ofName
  let buckets := (← Params.takeAs "bucket-type" Buckets.ofName).getD d.buckets
  let fallbackFraction := (← Params.takeFloat "rank-fallback-frac").getD d.fallbackFraction
  let jitter := (← Params.takeFlag "randomize-merge").getD d.jitter
  let maxRows := (← Params.takeWord "max-training-rows").getD d.maxRows
  let warmup := (← Params.takeTime "warmup-rtime").getD d.warmup
  let utilityRetains := (← Params.takeFlag "utility-consider-retain").getD d.utilityRetains
  let labelSkipsRetained := (← Params.takeFlag "label-skip-retain").getD d.labelSkipsRetained
  let seed := (← Params.takeSeed "seed").getD d.seed
  pure {
    segmentSize := segmentSize
    mergeCount := mergeCount
    retain := retain
    rankInterval := rankInterval
    signal := signal
    labels := labels
    retrainInterval := retrainInterval
    consecutive := consecutive
    selection := selection
    score := score
    buckets := buckets
    fallbackFraction := fallbackFraction
    jitter := jitter
    maxRows := maxRows
    warmup := warmup
    utilityRetains := utilityRetains
    labelSkipsRetained := labelSkipsRetained
    seed := seed }

/-- What is left when the settings are taken is refused. -/
def ofParams (p : Params) : Except ConfigError Config := do
  let (c, rest) ← settings.outOf p
  rest.finish "GLCache"
  c.validate
  pure c

def parse (text : String) : Except ConfigError Config := do
  ofParams (← Params.parse text)

end Config
end CacheReplay.GLCache
