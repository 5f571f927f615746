import SymbolAtlas.Text.Position

/-! # Successive matches in a text

A pattern is a function that reads a match at the head of a text, given the character before it,
and tells how many characters the match takes.
-/

namespace SymbolAtlas

abbrev Pattern (α : Type) := Option Char → List Char → Option (α × Nat)

namespace Pattern

variable {α : Type}

/-- The matches of a pattern after `previous`, with their offsets in UTF-16 units. Matches are
sought from left to right and do not overlap: `skip` characters belong to the last one. -/
def matchesFrom (pattern : Pattern α) (offset : Nat) (previous : Option Char) :
    Nat → List Char → List (Nat × α)
  | _, [] => []
  | skip + 1, c :: cs => matchesFrom pattern (offset + utf16Width c) (some c) skip cs
  | 0, c :: cs =>
    match pattern previous (c :: cs) with
    | some (a, n) =>
      (offset, a) :: matchesFrom pattern (offset + utf16Width c) (some c) (n - 1) cs
    | none => matchesFrom pattern (offset + utf16Width c) (some c) 0 cs

def matchesIn (pattern : Pattern α) (cs : List Char) : List (Nat × α) :=
  matchesFrom pattern 0 none 0 cs

end Pattern

end SymbolAtlas
