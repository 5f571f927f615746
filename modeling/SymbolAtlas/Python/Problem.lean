import SymbolAtlas.Python.Remedy

/-! # Problems

A `Problem` tells why a source has no syntax tree. For one that does not follow the grammar it names
the place of the mistake.
-/

namespace SymbolAtlas.Python

inductive Problem where
  | tooLong
  /-- What begins at a place does not follow the grammar. -/
  | misformed (place : Position)
  | incomplete (place : Position) (kind : String)
  deriving DecidableEq, Repr

def Problem.message : Problem → String
  | .tooLong => "Could not build syntax tree: Invalid argument"
  | .misformed place => syntaxError place
  | .incomplete place kind => syntaxError place ++ ": missing \"" ++ kind ++ "\""
where
  syntaxError (place : Position) : String :=
    "Syntax error at line " ++ toString place.line ++ ", column " ++ toString place.column

def sourceStart (source : List Char) : Position :=
  Position.start.after (source.takeWhile isFiller)

namespace Halt

def indentation (halt : Halt) : Nat := halt.last.blocks.headD 0

/-- Whether reading came to a halt within a statement, not at its start. -/
def isWithin (halt : Halt) : Bool := halt.last.start.offset != halt.statement.start.offset

/-- Whether reading came to a halt at the start of a statement that is indented deeper than the
block it stands in. -/
def isIndented (halt : Halt) : Bool :=
  !halt.isWithin && (Margin.read true halt.statement.stop.rest).any fun m =>
    m.broken && halt.statement.blocks.headD 0 < m.width

/-- Whether reading came to a halt within a statement that stands in no block, at an indented line
which does not begin with a word. Such a line seems to begin a block, and then nothing before it
can be made sense of. -/
def isDisplaced (halt : Halt) : Bool :=
  halt.isWithin && halt.indentation == 0 && (Margin.read true halt.last.stop.rest).any fun m =>
    m.broken && 0 < m.width && m.rest.head?.any fun c => !isWordStart c && c != '.'

/-- What is wrong with a source that came to a halt. A deeper indentation than there is a block for
is wrong where it begins; otherwise the best remedy tells. If there is none, all is wrong from the
start of the statement on, or from the start of the source if the halt is in a block. -/
def problem (source : List Char) (halt : Halt) : Problem :=
  if halt.isIndented then .misformed halt.statement.stop.position
  else if halt.isDisplaced then .misformed (sourceStart source)
  else
    match remedy? source halt with
    | some ⟨place, some kind, _, _⟩ => .incomplete place kind
    | some ⟨place, none, _, _⟩ => .misformed place
    | none =>
      if halt.indentation = 0 then .misformed halt.statement.start.position
      else .misformed (sourceStart source)

end Halt

end SymbolAtlas.Python
