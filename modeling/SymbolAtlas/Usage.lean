import SymbolAtlas.Config
import SymbolAtlas.Outline
import SymbolAtlas.Text.Blank

/-! # Unused names

An import is unused when it binds at least one name that can be seen, and none of its names is
used. A declaration is unused when its name is not used in the same file.
-/

namespace SymbolAtlas

def firstComponent (name : String) : String :=
  String.ofList (name.toList.takeWhile (· != '.'))

/-- The name that a binding brings into the file's scope; a wildcard brings none that can be
seen, and a plain import of a dotted name brings its first component. -/
def Binding.localName? (b : Binding) (clause : ImportClause) : Option String :=
  match b.rename.filter (!·.isEmpty) with
  | some name => some name
  | none =>
    if b.name = "*" then none
    else
      match clause with
      | .plain _ => some (firstComponent b.name)
      | _ => some b.name

namespace Outline

def isUnused (o : Outline) (i : Import) : Bool :=
  !i.names.isEmpty &&
    i.names.all fun b => (b.localName? i.clause).any fun name => !o.uses name

def unusedImports (o : Outline) : List Import := o.imports.filter o.isUnused

/-- The names of the declarations that are unused, in order. Names that other files can see are
left out unless the configuration includes them. -/
def unusedDeclarations (o : Outline) (config : Config) : List String :=
  (o.declarations.filter fun d =>
    !o.uses d.name && (config.includeExported || !d.isExported)).map (·.name)

end Outline

end SymbolAtlas
