import CacheReplay.Fault

set_option autoImplicit false

namespace CacheReplay

inductive QueueKind where
  | arrival
  | recency
  | clock
  | sieve
  deriving Repr, DecidableEq

def QueueKind.label : QueueKind → String
  | .arrival => "queue"
  | .recency => "recency list"
  | .clock => "clock queue"
  | .sieve => "sieve queue"

inductive Violation where
  | indexedFreeCell (id : Nat)
  | indexedWrongRecord (id : Nat)
  | emptyEntry (id : Nat)
  | indexSize (stored indexed live counted : Nat)
  | objectCount (counted stored : Nat)
  | byteCount (counted stored : Nat)
  | overCapacity (occupied capacity : Nat)
  | queueLength (queue : QueueKind) (queued stored : Nat)
  | queuedFreeCell (queue : QueueKind)
  | queuedUnindexed (id : Nat)
  | recencyOrder (id : Nat)
  | counterAbove (id counter limit : Nat)
  | strayHand
  | tierFreeCell (tier : String)
  | tierTag (id : Nat) (tier tag : String) (ghost : Bool)
  | tierBytes (tier : String) (tracked held : Nat)
  | unlisted
  | tierSum (sum occupied : Nat)
  | targetRange (target : String)
  | bucketFreeCell (bucket : Nat)
  | mislinked (segment bucket : Nat)
  | bucketCycle (bucket : Nat)
  | bucketCount (bucket counted linked : Nat)
  | segmentCount (allocated live training : Nat)
  | segmentObjects (held stored : Nat)
  | rankMismatch (rank : Nat)
  | segmentOverfull (segment held capacity : Nat)
  | foreignObject (segment : Nat)
  | segmentTotals (segment bytes active heldBytes heldActive : Nat)
  | noSingleVictim (policy : String)
  deriving Repr, DecidableEq

def Violation.message : Violation → String
  | .indexedFreeCell id => s!"object {id} indexed at a free slot"
  | .indexedWrongRecord id => s!"index entry for object {id} points at the wrong record"
  | .emptyEntry id => s!"empty index entry for object {id}"
  | .indexSize stored indexed live counted =>
    s!"{stored} records stored but {indexed} indexed ({live} live, {counted} counted)"
  | .objectCount counted stored => s!"n_obj is {counted} but {stored} live objects are stored"
  | .byteCount counted stored =>
    s!"occupied_bytes is {counted} but live objects take {stored} bytes"
  | .overCapacity occupied capacity => s!"occupied_bytes {occupied} exceeds capacity {capacity}"
  | .queueLength queue queued stored =>
    s!"{queue.label} holds {queued} objects but the store holds {stored}"
  | .queuedFreeCell .recency => "listed slot is free"
  | .queuedFreeCell _ => "queued slot is free"
  | .queuedUnindexed id => s!"object {id} is queued but not indexed"
  | .recencyOrder id => s!"object {id} is out of recency order"
  | .counterAbove id counter limit => s!"object {id} has counter {counter} above {limit}"
  | .strayHand => "sieve hand points at a free slot"
  | .tierFreeCell tier => s!"{tier} links a free slot"
  | .tierTag id tier tag ghost =>
    s!"object {id} is on {tier} but tagged {tag} (ghost: {ghost})"
  | .tierBytes tier tracked held => s!"{tier} tracks {tracked} bytes but holds {held}"
  | .unlisted => "ARC store holds unlisted records"
  | .tierSum sum occupied => s!"T1 + T2 = {sum} bytes but {occupied} are occupied"
  | .targetRange target => s!"p = {target} is out of range"
  | .bucketFreeCell bucket => s!"bucket {bucket} links to a free segment slot"
  | .mislinked segment bucket => s!"segment {segment} is mislinked in bucket {bucket}"
  | .bucketCycle bucket => s!"bucket {bucket} chain has a cycle"
  | .bucketCount bucket counted linked =>
    s!"bucket {bucket} counts {counted} segments but links {linked}"
  | .segmentCount allocated live training =>
    s!"{allocated} segments allocated but {live} live and {training} training"
  | .segmentObjects held stored => s!"segments hold {held} objects but the store holds {stored}"
  | .rankMismatch rank => s!"ranked slot {rank} names a segment with a different rank"
  | .segmentOverfull segment held capacity =>
    s!"segment {segment} holds {held} objects, capacity {capacity}"
  | .foreignObject segment => s!"segment {segment} lists an object that does not point back at it"
  | .segmentTotals segment bytes active heldBytes heldActive =>
    s!"segment {segment} counts {bytes} bytes / {active} active, objects hold {heldBytes} / {heldActive}"
  | .noSingleVictim policy => s!"{policy} cannot name a single eviction victim"

abbrev Audit (α : Type) := ExceptT Violation (Except Fault) α

def Audit.reject : Option Violation → Audit Unit
  | some v => throw v
  | none => pure ()

end CacheReplay
