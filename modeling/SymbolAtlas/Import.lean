import SymbolAtlas.Text.Position

/-! # Imports

An import names a module and the names that its clause binds. Whether it is relative, and how many
levels up it points, are read off the module name and are never stored.
-/

namespace SymbolAtlas

/-- A name that an import clause lists, and the name it is given here, if another. -/
structure Binding where
  name : String
  rename : Option String
  deriving DecidableEq, Repr

/-- The shape of an import: only the first five bind names. -/
inductive ImportClause where
  /-- `import os`, `import os.path as p` -/
  | plain (names : List Binding)
  /-- `from pkg import a, b as c` -/
  | fromModule (names : List Binding)
  /-- `import * as ns from 'm'` -/
  | wholeModule (names : List Binding)
  /-- `import { a, b as c } from 'm'`, `import d, { a } from 'm'` -/
  | named (names : List Binding)
  /-- `import d from 'm'` -/
  | defaultName (names : List Binding)
  /-- `import 'm'` -/
  | sideEffect
  /-- `require('m')` -/
  | requireCall
  /-- `import('m')` -/
  | dynamicCall
  deriving DecidableEq, Repr

def ImportClause.names : ImportClause → List Binding
  | plain ns | fromModule ns | wholeModule ns | named ns | defaultName ns => ns
  | sideEffect | requireCall | dynamicCall => []

def relativeLevel (source : String) : Nat := (source.toList.takeWhile (· == '.')).length

def isRelative (source : String) : Bool := 0 < relativeLevel source

/-- An import: its clause, the module name as written, and where the statement or call begins. -/
structure Import where
  clause : ImportClause
  source : String
  position : Position
  deriving DecidableEq, Repr

namespace Import

def names (i : Import) : List Binding := i.clause.names

def isRelative (i : Import) : Bool := SymbolAtlas.isRelative i.source

/-- How many levels up a `from` import points; other imports have no level. -/
def level? (i : Import) : Option Nat :=
  match i.clause with
  | .fromModule _ => some (relativeLevel i.source)
  | _ => none

end Import

end SymbolAtlas
