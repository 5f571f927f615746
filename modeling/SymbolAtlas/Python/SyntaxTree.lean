import SymbolAtlas.Python.Problem

/-! # Syntax trees of sources

A source that follows the grammar and is not too long has a syntax tree. For any other there is a
`Problem`.
-/

namespace SymbolAtlas.Python

/-- The number of UTF-16 units from which on a source is too long for a syntax tree. -/
def lengthLimit : Nat := 32768

def syntaxTree (content : String) : Except Problem Tree :=
  let cs := content.toList
  if lengthLimit ≤ utf16Length cs then .error .tooLong
  else
    match statements cs with
    | .ok ts => .ok (.node .module ts)
    | .error halt => .error (halt.problem cs)

end SymbolAtlas.Python
