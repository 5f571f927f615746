import SymbolAtlas.Import
import SymbolAtlas.Python.Tree

/-! # Imports in a syntax tree

Import statements count wherever they stand, in source order.
-/

namespace SymbolAtlas.Python.Tree

def binding? (t : Tree) : Option Binding :=
  match t.kind with
  | .dottedName | .identifier => some ⟨t.text, none⟩
  | .renamedImport => do
    let name ← (t.child? .name).map text
    guard (name != "")
    return ⟨name, (t.child? .rename).map text⟩
  | _ => none

/-- The binding that a part of a `from` import makes; a star stands for all names. -/
def fromBinding? (t : Tree) : Option Binding :=
  if t.kind = .wildcardImport then some ⟨"*", none⟩ else t.binding?

def isModulePath (t : Tree) : Bool := t.kind == .relativeImport || t.kind == .dottedName

def importsHere (t : Tree) : List Import :=
  match t.kind with
  | .plainImport =>
    (t.namedChildren.filterMap binding?).map fun b => ⟨.plain [b], b.name, t.position⟩
  | .futureImport =>
    [⟨.fromModule (t.namedChildren.filterMap fromBinding?), "__future__", t.position⟩]
  | .fromImport =>
    match t.namedChildren.dropWhile fun c => !c.isModulePath with
    | [] => []
    | path :: names => [⟨.fromModule (names.filterMap fromBinding?), path.text, t.position⟩]
  | _ => []

def imports (t : Tree) : List Import := t.nodes.flatMap importsHere

end SymbolAtlas.Python.Tree
