import SymbolAtlas.Config
import SymbolAtlas.Text.Blank

/-! # Overrides from environment variables

Lists are comma-separated, with blanks around entries and empty entries ignored. Truth values are
`true`, `false`, `1` and `0` in any letter case.
-/

namespace SymbolAtlas

structure Environment where
  extensions : Option String
  indexFiles : Option String
  includeExported : Option String
  deriving DecidableEq, Repr

namespace Environment

def extensionsVariable : String := "SOURCELENS_RESOLVE_EXTENSIONS"

def indexFilesVariable : String := "SOURCELENS_INDEX_FILES"

def includeExportedVariable : String := "SOURCELENS_UNUSED_INCLUDE_EXPORTED"

def listEntries (value : String) : List String :=
  (((splitAt ',' value.toList).map trim).filter (!·.isEmpty)).map String.ofList

def flag? (value : String) : Option Bool :=
  let word := String.ofList (lowercase (trim value.toList))
  if word == "true" || word == "1" then some true
  else if word == "false" || word == "0" then some false
  else none

/-- A section of overrides, left out when no entry of it is set. -/
def sectionOf (name : String) (entries : List (String × Value)) : List (String × Value) :=
  if entries.isEmpty then [] else [(name, .record entries)]

def overrides (e : Environment) : Except Fault Value := do
  let lists (name : String) (value : Option String) : List (String × Value) :=
    (value.map fun v => (name, Value.list ((listEntries v).map .text))).toList
  let resolution := lists "extensions" e.extensions ++ lists "indexFiles" e.indexFiles
  let unused ←
    match e.includeExported with
    | none => pure []
    | some value =>
      match flag? value with
      | some b => pure [("includeExported", Value.bool b)]
      | none => throw (Fault.invalidFlag includeExportedVariable value)
  return .record (sectionOf "resolution" resolution ++ sectionOf "unused" unused)

end Environment

end SymbolAtlas
