import CacheReplay.ConfigError
import CacheReplay.Decimal.Reader
import CacheReplay.Text.Field

set_option autoImplicit false

/-!
# Parameters

A parameter text is a list of `key=value` items between commas. Keys are
compared without their case and with dashes for underscores; blanks around
items, keys and values and empty items mean nothing. A key is given once.
-/
namespace CacheReplay

structure Params where
  pairs : List (String × String)
  deriving Repr, DecidableEq

namespace Params

def normalizeKey (key : List Char) : List Char := Text.dashed (Text.lower (Text.trim key))

def items (text : String) : List (List Char) :=
  ((Text.splitAll ',' text.toList).map Text.trim).filter (!·.isEmpty)

def readItem (item : List Char) : Except ConfigError (String × String) :=
  match Text.splitFirst '=' item with
  | none => .error (.notAssignment (.ofList item))
  | some (key, value) =>
    let key := normalizeKey key
    if key.isEmpty then .error (.emptyKey (.ofList item))
    else .ok (.ofList key, .ofList (Text.trim value))

def readItems (earlier : List String) : List (List Char) → Except ConfigError (List (String × String))
  | [] => .ok []
  | item :: rest => do
    let (key, value) ← readItem item
    if key ∈ earlier then throw (.duplicateKey key)
    let pairs ← readItems (key :: earlier) rest
    pure ((key, value) :: pairs)

def parse (text : String) : Except ConfigError Params := do
  let pairs ← readItems [] (items text)
  pure ⟨pairs⟩

def isEmpty (p : Params) : Bool := p.pairs.isEmpty

/-- Removes a key and gives its value. -/
def take (p : Params) (key : String) : Option String × Params :=
  match p.pairs.findIdx? fun e => e.1 = key with
  | none => (none, p)
  | some i => (p.pairs[i]?.map (·.2), ⟨p.pairs.eraseIdx i⟩)

/-- A reading that takes parameters away, also when it fails. -/
abbrev Taking (α : Type) : Type := ExceptT ConfigError (StateM Params) α

def Taking.outOf {α : Type} (x : Taking α) (p : Params) : Except ConfigError (α × Params) :=
  match x.run.run p with
  | (.ok a, rest) => .ok (a, rest)
  | (.error e, _) => .error e

/-- Takes a key away and reads its value, if it is given. -/
def takeAs {α : Type} (key : String) (f : String → Except ConfigError α) : Taking (Option α) := do
  let value ← modifyGet fun p => p.take key
  MonadExcept.ofExcept (value.mapM f)

def demand {α : Type} (key : String) (kind : ValueKind) (f : String → Option α) (text : String) :
    Except ConfigError α :=
  match f text with
  | some a => .ok a
  | none => .error (.wrongValue key kind text)

def readWord (key : String) : String → Except ConfigError Nat := demand key .word Decimal.readWord?

def readTime (key : String) : String → Except ConfigError Int := demand key .time Decimal.readTime?

def readSeed (key : String) : String → Except ConfigError Nat := demand key .seed Decimal.readWord?

def readFloat (key text : String) : Except ConfigError Float := do
  let x ← demand key .float Decimal.readFloat? text
  if x.isFinite then pure x else throw (.notFinite key x)

def readFlag (key : String) : String → Except ConfigError Bool :=
  demand key .boolean fun text =>
    match Text.folded text with
    | "true" | "1" | "yes" => some true
    | "false" | "0" | "no" => some false
    | _ => none

def takeWord (key : String) : Taking (Option Nat) := takeAs key (readWord key)

def takeTime (key : String) : Taking (Option Int) := takeAs key (readTime key)

def takeSeed (key : String) : Taking (Option Nat) := takeAs key (readSeed key)

def takeFloat (key : String) : Taking (Option Float) := takeAs key (readFloat key)

def takeFlag (key : String) : Taking (Option Bool) := takeAs key (readFlag key)

def finish (p : Params) (policy : String) : Except ConfigError Unit :=
  match p.pairs with
  | [] => .ok ()
  | (key, _) :: _ => .error (.unsupported policy key)

theorem finish_eq_ok_iff (p : Params) (policy : String) :
    p.finish policy = .ok () ↔ p.pairs = [] := by
  unfold finish
  split <;> simp_all

end Params
end CacheReplay
