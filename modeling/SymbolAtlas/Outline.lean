import SymbolAtlas.Declaration
import SymbolAtlas.Import
import SymbolAtlas.Language

/-! # Outlines

The outline of a source is what every language's reader finds in it: its imports, its top-level
declarations and the names that it uses.
-/

namespace SymbolAtlas

/-- What a reader finds in a source. `language` is none when no reader claims the source, and
`problems` tells why the outline is not built on a syntax tree, when `isValid` is false. -/
structure Outline where
  language : Option Language
  imports : List Import
  declarations : Declarations
  references : List Reference
  isValid : Bool
  problems : List String
  content : String
  deriving DecidableEq, Repr

namespace Outline

def unknown (content : String) : Outline := ⟨none, [], [], [], true, [], content⟩

def uses (o : Outline) (name : String) : Bool := o.references.any (·.name == name)

end Outline

end SymbolAtlas
