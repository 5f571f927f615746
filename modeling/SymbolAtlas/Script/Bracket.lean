import SymbolAtlas.Token

/-! # Skipping over brackets

Readers walk over a list of tokens and answer with the tokens that they leave. The three bracket
shapes count alike: a closing bracket closes the last one opened, whatever its shape.
-/

namespace SymbolAtlas.Script

/-- The tokens up to the bracket that closes `depth + 1` open ones, and those after it; `none`
when they stay open. -/
def untilClosed : Nat → List Token → Option (List Token × List Token)
  | _, [] => none
  | depth, t :: ts =>
    if t.isOpener then
      (untilClosed (depth + 1) ts).map fun (inner, rest) => (t :: inner, rest)
    else if t.isCloser then
      match depth with
      | 0 => some ([], ts)
      | depth + 1 => (untilClosed depth ts).map fun (inner, rest) => (t :: inner, rest)
    else (untilClosed depth ts).map fun (inner, rest) => (t :: inner, rest)

/-- The tokens after the bracket that closes the one just opened; none when it stays open. -/
def afterClosed (ts : List Token) : List Token :=
  match untilClosed 0 ts with
  | some (_, rest) => rest
  | none => []

/-- By how much a token changes the depth of angle brackets: a double or triple closing mark
closes two or three. -/
def angleChange (t : Token) : Int :=
  if t.isOperator "<" then 1
  else if t.isOperator ">" then -1
  else if t.isOperator ">>" then -2
  else if t.isOperator ">>>" then -3
  else 0

def angleDepth (depth : Nat) (t : Token) : Nat := (depth + angleChange t).toNat

/-- The tokens after a type parameter list; `depth` is the depth before the first token. -/
def afterAngles (depth : Int) : List Token → List Token
  | [] => []
  | t :: ts =>
    let depth := depth + angleChange t
    if depth ≤ 0 then ts else afterAngles depth ts

/-- The tokens from the first of the marks `stops` outside every bracket opened here, or from the
bracket that closes an outer one. -/
def fromStop (stops : List String) : Nat → List Token → List Token
  | _, [] => []
  | depth, t :: ts =>
    if depth = 0 && t.hasKind .punctuation && stops.contains t.text then t :: ts
    else if t.isOpener then fromStop stops (depth + 1) ts
    else if t.isCloser then
      match depth with
      | 0 => t :: ts
      | depth + 1 => fromStop stops depth ts
    else fromStop stops depth ts

end SymbolAtlas.Script
