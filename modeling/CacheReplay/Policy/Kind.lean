import CacheReplay.ConfigError
import CacheReplay.Text.Field

set_option autoImplicit false

namespace CacheReplay

inductive PolicyKind where
  | fifo
  | lru
  | clock
  | sieve
  | arc
  | glcache
  deriving Repr, DecidableEq

namespace PolicyKind

def label : PolicyKind → String
  | .fifo => "FIFO"
  | .lru => "LRU"
  | .clock => "Clock"
  | .sieve => "Sieve"
  | .arc => "ARC"
  | .glcache => "GLCache"

def ofName (text : String) : Except ConfigError PolicyKind :=
  match Text.bare text with
  | "fifo" => .ok .fifo
  | "lru" => .ok .lru
  | "clock" => .ok .clock
  | "sieve" => .ok .sieve
  | "arc" => .ok .arc
  | "glcache" => .ok .glcache
  | _ => .error (.unknownPolicy text)

end PolicyKind
end CacheReplay
