import SymbolAtlas.Import
import SymbolAtlas.Text.Blank
import SymbolAtlas.Text.Identifier
import SymbolAtlas.Text.Matches

/-! # Import lines

When a Python source has no clean syntax tree, its imports are the lines that begin with `import`
or `from`, at any indentation. A line begins after any line break.
-/

namespace SymbolAtlas.Python.Lines

open Identifier

def atLineStart (previous : Option Char) : Bool := previous.all isLineBreak

def gapLength (cs : List Char) : Nat := (cs.takeWhile isSpaceOrTab).length

def afterWord (word : String) (cs : List Char) : Option (List Char) :=
  let w := word.toList
  if w.isPrefixOf cs then some (cs.drop w.length) else none

/-- The text after a run of spaces and tabs that must not be empty, and the length of the run. -/
def afterGap (cs : List Char) : Option (Nat × List Char) :=
  match gapLength cs with
  | 0 => none
  | n + 1 => some (n + 1, cs.drop (n + 1))

def isDottedPart (c : Char) : Bool := isAsciiWord c || c == '.'

/-- What follows a name in a list entry: nothing, or `as` and another name. -/
def renameIn (cs : List Char) : Option (Option String) :=
  match cs with
  | [] => some none
  | _ => do
    let afterBlanks := cs.dropWhile isBlank
    guard (afterBlanks.length < cs.length)
    let rest ← afterWord "as" afterBlanks
    let rename := rest.dropWhile isBlank
    guard (rename.length < rest.length && !rename.isEmpty && rename.all isAsciiWord)
    return some (String.ofList rename)

/-- The binding that a list entry spells; none for an empty or malformed one. -/
def entryBinding (part : List Char) : Option Binding :=
  let part := trim part
  let name := part.takeWhile fun c => isDottedPart c || c == '*'
  if name.isEmpty then none
  else (renameIn (part.drop name.length)).map fun rename => ⟨String.ofList name, rename⟩

/-- A line `import a, b as c`; the value is the indentation and the list. -/
def importLine : Pattern (Nat × List Char) := fun previous cs => do
  guard (atLineStart previous)
  let indent := gapLength cs
  let rest ← afterWord "import" (cs.drop indent)
  let (gap, rest) ← afterGap rest
  let entries := rest.takeWhile fun c => isDottedPart c || isSpaceOrTab c || c == ','
  return ((indent, entries), indent + 6 + gap + entries.length)

/-- A line `from m import a, b as c`; the value is the indentation, the module and the list. The
list ends before a comment. It may be blank, but then needs a blank of its own. -/
def fromLine : Pattern (Nat × String × List Char) := fun previous cs => do
  guard (atLineStart previous)
  let indent := gapLength cs
  let rest ← afterWord "from" (cs.drop indent)
  let (gap₁, rest) ← afterGap rest
  let module := rest.takeWhile isDottedPart
  guard (!module.isEmpty)
  let (gap₂, rest) ← afterGap (rest.drop module.length)
  let rest ← afterWord "import" rest
  let (gap₃, rest) ← afterGap rest
  let entries := rest.takeWhile fun c => c != '\n' && c != '#'
  guard (!entries.isEmpty || 1 < gap₃)
  return ((indent, String.ofList module, entries),
    indent + 4 + gap₁ + module.length + gap₂ + 6 + gap₃ + entries.length)

/-- The imports that an `import` line makes, one for each entry. -/
def plainImports (position : Position) (entries : List Char) : List Import :=
  ((splitAt ',' entries).filterMap entryBinding).map fun b => ⟨.plain [b], b.name, position⟩

/-- The import that a `from` line makes. Brackets and backslashes in its list are ignored. -/
def fromImport (position : Position) (module : String) (entries : List Char) : Import :=
  let bare := entries.filter fun c => !(c == '(' || c == ')' || c == '\\')
  ⟨.fromModule ((splitAt ',' bare).filterMap entryBinding), module, position⟩

def imports (content : String) : List Import :=
  let cs := content.toList
  let index := LineIndex.ofList cs
  let plain := (importLine.matchesIn cs).flatMap fun (offset, indent, entries) =>
    (plainImports (index.locate (offset + indent)) entries).map fun i => (offset + indent, i)
  let fromLines := (fromLine.matchesIn cs).map fun (offset, indent, module, entries) =>
    (offset + indent, fromImport (index.locate (offset + indent)) module entries)
  ((plain ++ fromLines).mergeSort fun a b => a.1 ≤ b.1).map (·.2)

end SymbolAtlas.Python.Lines
