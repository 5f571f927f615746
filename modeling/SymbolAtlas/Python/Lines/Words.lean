import SymbolAtlas.Python.Lines.Declarations

/-! # Words of lines

Without a syntax tree, every word that is not of the language counts as a reference, but for those
in comments and on import lines.
-/

namespace SymbolAtlas.Python.Lines

open Identifier

def isImportLine (line : List Char) : Bool :=
  let rest := line.dropWhile isSpaceOrTab
  let opens := fun word => ((afterWord word rest).bind List.head?).any isSpaceOrTab
  opens "import" || opens "from"

def withoutComment (line : List Char) : List Char := line.takeWhile (· != '#')

/-- A maximal run of word characters that does not begin with a digit. -/
def word : Pattern String := fun previous cs => do
  guard (!previous.any isAsciiWord)
  let name ← nameAhead cs
  return (String.ofList name, name.length)

def lineReferences (number : Nat) (line : List Char) : List Reference :=
  if isImportLine line then []
  else
    ((word.matchesIn (withoutComment line)).filter fun (_, w) => !isKeyword w).map
      fun (offset, w) => ⟨w, ⟨number, offset + 1⟩⟩

def referencesFrom (number : Nat) : List (List Char) → List Reference
  | [] => []
  | line :: lines => lineReferences number line ++ referencesFrom (number + 1) lines

def references (content : String) : List Reference :=
  referencesFrom 1 (splitAt '\n' content.toList)

end SymbolAtlas.Python.Lines
