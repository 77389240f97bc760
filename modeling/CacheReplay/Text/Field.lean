import CacheReplay.Text.Blank

set_option autoImplicit false

namespace CacheReplay.Text

def splitAll (sep : Char) : List Char → List (List Char)
  | [] => [[]]
  | c :: s =>
    match splitAll sep s with
    | [] => [[c]]
    | part :: parts => if c = sep then [] :: part :: parts else (c :: part) :: parts

def splitFirst (sep : Char) : List Char → Option (List Char × List Char)
  | [] => none
  | c :: s =>
    if c = sep then some ([], s) else (splitFirst sep s).map fun (a, b) => (c :: a, b)

def lower (s : List Char) : List Char := s.map Char.toLower

def dashed (s : List Char) : List Char := s.map fun c => if c = '_' then '-' else c

def bare (s : String) : String :=
  String.ofList ((lower s.toList).filter fun c => c ≠ '-' ∧ c ≠ '_')

def plain (s : String) : String := String.ofList (dashed (lower s.toList))

def folded (s : String) : String := String.ofList (lower s.toList)

theorem splitFirst_of_not_mem {sep : Char} {s : List Char} (h : sep ∉ s) :
    splitFirst sep s = none := by
  induction s with
  | nil => rfl
  | cons c s ih =>
    simp only [List.mem_cons, not_or] at h
    simp [splitFirst, ih h.2, Ne.symm h.1]

theorem splitFirst_append {sep : Char} {a : List Char} (h : sep ∉ a) (b : List Char) :
    splitFirst sep (a ++ sep :: b) = some (a, b) := by
  induction a with
  | nil => simp [splitFirst]
  | cons c a ih =>
    simp only [List.mem_cons, not_or] at h
    simp [splitFirst, ih h.2, Ne.symm h.1]

end CacheReplay.Text
