import SymbolAtlas.Outline
import SymbolAtlas.Script.Dialect
import SymbolAtlas.Script.RequireCall
import SymbolAtlas.Script.TopLevel
import SymbolAtlas.Script.Use
import SymbolAtlas.Token.Scan

/-! # Outlines of scripts

A script's outline is read off its tokens; only `require` calls are also sought in the raw text.
Malformed scripts have an outline like any other.
-/

namespace SymbolAtlas.Script

def outline (content : String) (filename : Option String) : Outline :=
  let tokens := tokenize content
  { language := some (dialect content filename)
    imports := imports tokens content
    declarations := declarations tokens
    references := references tokens
    isValid := true
    problems := []
    content := content }

end SymbolAtlas.Script
