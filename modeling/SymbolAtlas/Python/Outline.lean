import SymbolAtlas.Log
import SymbolAtlas.Outline
import SymbolAtlas.Python.Lines.Words
import SymbolAtlas.Python.SyntaxTree
import SymbolAtlas.Python.Tree.Declarations
import SymbolAtlas.Python.Tree.Imports
import SymbolAtlas.Python.Tree.References

/-! # Outlines of Python sources

A source with a clean syntax tree is read off that tree. Otherwise the whole outline comes from
its lines, is marked invalid, and a warning tells why.
-/

namespace SymbolAtlas.Python

def lineOutline (content problem : String) : Outline where
  language := some .python
  imports := Lines.imports content
  declarations := Lines.declarations content
  references := Lines.references content
  isValid := false
  problems := [problem]
  content := content

def treeOutline (content : String) (tree : Tree) : Outline where
  language := some .python
  imports := tree.imports
  declarations := tree.declarations
  references := tree.references
  isValid := true
  problems := []
  content := content

def outline (content : String) (filename : Option String) : Outline × List Log.Entry :=
  match syntaxTree content with
  | .ok tree => (treeOutline content tree, [])
  | .error problem =>
    (lineOutline content problem.message,
      [⟨.warning, filename.getD "<source>" ++ ": " ++ problem.message ++
        "; falling back to line-based extraction"⟩])

end SymbolAtlas.Python
