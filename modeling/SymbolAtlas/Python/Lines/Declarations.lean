import SymbolAtlas.Declaration
import SymbolAtlas.Python.Lines.Imports

/-! # Declaring lines

Without a syntax tree, only unindented lines declare names: functions, classes and assignments.
-/

namespace SymbolAtlas.Python.Lines

open Identifier

def keywords : List String :=
  ["False", "None", "True", "and", "as", "assert", "async", "await", "break", "class", "continue",
    "def", "del", "elif", "else", "except", "finally", "for", "from", "global", "if", "import",
    "in", "is", "lambda", "nonlocal", "not", "or", "pass", "raise", "return", "try", "while",
    "with", "yield"]

def isKeyword (word : String) : Bool := keywords.contains word

def nameAhead (cs : List Char) : Option (List Char) :=
  match cs with
  | c :: _ => if isAsciiWordStart c then some (cs.takeWhile isAsciiWord) else none
  | [] => none

/-- A line that declares a name, and how far into the line the name stands. -/
structure Line where
  form : Declaration.Form
  descriptor : String
  name : String
  column : Nat
  deriving DecidableEq, Repr

/-- A line `def f(` or `async def f(`. -/
def functionLine : Pattern Line := fun previous cs => do
  guard (atLineStart previous)
  let (lead, rest) :=
    match afterWord "async" cs >>= afterGap with
    | some (gap, rest) => (5 + gap, rest)
    | none => (0, cs)
  let rest ← afterWord "def" rest
  let (gap, rest) ← afterGap rest
  let name ← nameAhead rest
  let rest := rest.drop name.length
  let after := gapLength rest
  guard ((rest.drop after).head? == some '(')
  let column := lead + 3 + gap
  return (⟨.function "", if lead = 0 then "function" else "async function", String.ofList name,
    column⟩, column + name.length + after + 1)

def classLine : Pattern Line := fun previous cs => do
  guard (atLineStart previous)
  let rest ← afterWord "class" cs
  let (gap, rest) ← afterGap rest
  let name ← nameAhead rest
  return (⟨.classType, "class", String.ofList name, 5 + gap⟩, 5 + gap + name.length)

/-- The text after an annotation, if one stands here, and its length. -/
def afterAnnotation (cs : List Char) : Option (Nat × List Char) :=
  match cs with
  | ':' :: rest =>
    let note := rest.takeWhile fun c => c != '=' && c != '\n'
    if note.isEmpty then none
    else some (note.length + 1, rest.drop note.length)
  | _ => some (0, cs)

/-- A line `x = ...` or `x: T = ...`. -/
def assignmentLine : Pattern Line := fun previous cs => do
  guard (atLineStart previous)
  let name ← nameAhead cs
  let rest := cs.drop name.length
  let gap := gapLength rest
  let (note, rest) ← afterAnnotation (rest.drop gap)
  let '=' :: rest := rest | none
  guard (rest.head? != some '=')
  let descriptor := if note = 0 then "variable" else "annotated variable"
  return (⟨.value, descriptor, String.ofList name, 0⟩, name.length + gap + note + 1)

def Line.declaration (line : Line) (position : Position) : Declaration :=
  ⟨line.form, line.name, position, line.descriptor, !isPrivateName line.name⟩

def declarations (content : String) : Declarations :=
  let cs := content.toList
  let index := LineIndex.ofList cs
  let assignments := (assignmentLine.matchesIn cs).filter fun (_, line) => !isKeyword line.name
  let found := functionLine.matchesIn cs ++ classLine.matchesIn cs ++ assignments
  let placed := found.map fun (offset, line) => (offset + line.column, line)
  let ordered := placed.mergeSort fun a b => a.1 ≤ b.1
  Declarations.ofFound (ordered.map fun (offset, line) => line.declaration (index.locate offset))

end SymbolAtlas.Python.Lines
