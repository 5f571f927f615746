import SymbolAtlas.Python.Parse

/-! # Goals of the expression grammar

The constructs of the grammar contain one another. A parser of one construct is therefore written
against a parser of all of them, which it calls with a `Goal`, and a `Context` tells what may follow
the construct.
-/

namespace SymbolAtlas.Python.Grammar

/-- What may follow a construct, apart from the operators that continue it. -/
structure Context where
  lineEnd : Bool := false
  closer : Bool := false
  words : List String := []
  /-- Whether `if` continues an expression. In the clauses of a comprehension it does not. -/
  isConditional : Bool := true

namespace Context

def statement : Context := { lineEnd := true }

/-- Before a colon or a keyword, outside brackets. -/
def plain : Context := {}

def bracketed : Context := { closer := true }

/-- The first element between brackets, which may turn out to be the body of a comprehension. -/
def body : Context := { closer := true, words := ["for", "async"] }

def clause : Context := { closer := true, words := ["for", "async", "if"], isConditional := false }

def after (ctx : Context) : Demand := { lineEnd := ctx.lineEnd, closer := ctx.closer }

/-- What may follow where a further operand may stand, too. -/
def afterOrOperand (ctx : Context) : Demand := { ctx.after with string := true }

end Context

/-- How loosely an expression may bind. Each level includes the ones below it. -/
inductive Level where
  /-- A negation, a comparison, an operand, a lambda or a named expression. -/
  | negation
  | conjunction
  | disjunction
  | capture
  | conditional
  deriving DecidableEq, Repr

def Level.rank : Level → Nat
  | negation => 0
  | conjunction => 1
  | disjunction => 2
  | capture => 3
  | conditional => 4

def Level.includes (l m : Level) : Bool := m.rank ≤ l.rank

/-- The constructs that contain one another. -/
inductive Goal where
  | expression (level : Level) (ctx : Context)
  /-- Operands joined by operators that bind at least as tightly as `power`. -/
  | operand (power : Nat) (ctx : Context)
  | unsigned (ctx : Context)
  | starred (ctx : Context)
  /-- A source of a comprehension's loop. A lambda there may end before `if`. -/
  | source (ctx : Context)
  | rightSide
  /-- A type; whether a colon and another type may follow it. -/
  | type (isConstrainable : Bool) (ctx : Context)
  | casePattern (ctx : Context)
  /-- A pattern of a `case` that is neither renamed nor an argument with its name. -/
  | simplePattern (ctx : Context)
  /-- A braced expression in interpolated text. -/
  | interpolation (kind : Kind)

structure Items where
  /-- The elements with the commas between them. -/
  trees : List Tree
  count : Nat
  /-- Whether a comma follows the last element. -/
  isTrailed : Bool

namespace Items

/-- Whether there is but one element, with no comma after it. -/
def isSingle (items : Items) : Bool := items.count == 1 && !items.isTrailed

end Items

/-- The rest of a list after its first element: commas, and after every comma for which `goesOn`
holds another element. -/
def itemsAfter (first : List Tree) (element : Parse (List Tree)) (afterComma : Demand)
    (goesOn : State → Bool) : Parse Items := do
  let (chunks, count, isTrailed) ← Parse.loop ([first], 1, false) fun (chunks, count, isTrailed) => do
    if isTrailed || !(← Parse.query (·.isAt ",")) then return none
    let comma ← Parse.mark "," afterComma
    if ← Parse.query goesOn then
      return some ((← element) :: comma :: chunks, count + 1, false)
    else return some (comma :: chunks, count, true)
  return ⟨chunks.reverse.flatten, count, isTrailed⟩

def items (element : Parse (List Tree)) (afterComma : Demand) (goesOn : State → Bool) :
    Parse Items := do
  itemsAfter (← element) element afterComma goesOn

end SymbolAtlas.Python.Grammar
