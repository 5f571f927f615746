import SymbolAtlas.Import
import SymbolAtlas.Text.Blank
import SymbolAtlas.Text.Matches
import SymbolAtlas.Script.ImportClause

/-! # `require` calls in raw text

A call `require ( 'm' )` with a quoted argument is recognised anywhere in the text, also where the
tokens do not show it. Blanks may stand around the argument; the two quotes need not match.
-/

namespace SymbolAtlas.Script

def isQuoteMark (c : Char) : Bool := c == '\'' || c == '"'

/-- The text after a character that must come next, blanks before it aside, and how many
characters were read. -/
def markAfterBlanks (test : Char → Bool) (cs : List Char) : Option (Nat × List Char) :=
  let blanks := (cs.takeWhile isBlank).length
  match cs.drop blanks with
  | c :: rest => if test c then some (blanks + 1, rest) else none
  | [] => none

/-- The pattern of a call; its value is the argument. -/
def requireCall : Pattern String := fun _ cs => do
  let name := "require".toList
  guard (name.isPrefixOf cs)
  let (n₁, rest) ← markAfterBlanks (· == '(') (cs.drop name.length)
  let (n₂, rest) ← markAfterBlanks isQuoteMark rest
  let argument := rest.takeWhile (!isQuoteMark ·)
  guard (!argument.isEmpty)
  let closing :: rest := rest.drop argument.length | none
  guard (isQuoteMark closing)
  let (n₃, _) ← markAfterBlanks (· == ')') rest
  return (String.ofList argument, name.length + n₁ + n₂ + argument.length + 1 + n₃)

def textImports (content : String) : List Import :=
  let cs := content.toList
  let index := LineIndex.ofList cs
  (requireCall.matchesIn cs).map fun (offset, source) =>
    ⟨.requireCall, source, index.locate offset⟩

/-- The imports of a source: those its tokens show, then the `require` calls in its text whose
module none of the earlier ones requires. -/
def imports (tokens : List Token) (content : String) : List Import :=
  (textImports content).foldl
    (fun found i =>
      if found.any fun j => j.clause == i.clause && j.source == i.source then found
      else found ++ [i])
    (tokenImports tokens)

end SymbolAtlas.Script
