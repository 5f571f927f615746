import SymbolAtlas.Text.Position

/-! # Declarations

A declaration binds a name at the top level of a file. Declarations are kept in the order in which
their names first appear; a later declaration of a name takes the place of the earlier one.
-/

namespace SymbolAtlas

/-- What a declaration declares. A function carries its signature, as far as it can be read. -/
inductive Declaration.Form where
  | value
  | function (signature : String)
  | classType
  | interfaceType
  | typeAlias
  | enumeration
  deriving DecidableEq, Repr

/-- A name declared at the top level: where the name stands, a free-text detail such as
`async function`, and whether other files can see it. -/
structure Declaration where
  form : Declaration.Form
  name : String
  position : Position
  descriptor : String
  isExported : Bool
  deriving DecidableEq, Repr

/-- Whether a name is private by convention: it begins with an underscore. -/
def isPrivateName (name : String) : Bool := name.toList.head? == some '_'

namespace Declaration

def isValue (d : Declaration) : Bool := d.form == .value

end Declaration

/-- Declarations in the order in which their names first appeared. -/
abbrev Declarations := List Declaration

namespace Declarations

def declares (ds : Declarations) (name : String) : Bool := ds.any (·.name == name)

/-- Declare a name. If it is declared already, the new declaration stands in its place. -/
def insert (d : Declaration) : Declarations → Declarations
  | [] => [d]
  | e :: es => if e.name = d.name then d :: es else e :: insert d es

def insertAll (ds : Declarations) (new : List Declaration) : Declarations :=
  new.foldl (fun ds d => insert d ds) ds

/-- Declare the names found in a file, in source order. Of several variables of one name only the
first counts; `seen` are the names of variables that came before. -/
def merge (ds : Declarations) (seen : List String) : List Declaration → Declarations
  | [] => ds
  | d :: found =>
    if d.isValue then
      if seen.contains d.name then merge ds seen found
      else merge (insert d ds) (d.name :: seen) found
    else merge (insert d ds) seen found

def ofFound (found : List Declaration) : Declarations := merge [] [] found

end Declarations

structure Reference where
  name : String
  position : Position
  deriving DecidableEq, Repr

end SymbolAtlas
