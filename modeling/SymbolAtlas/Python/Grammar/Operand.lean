import SymbolAtlas.Python.Grammar.Collection

/-! # Operands

Names, literals and bracketed constructs, what is attached to them, and the operators that join
operands more tightly than any comparison.
-/

namespace SymbolAtlas.Python.Grammar

open Parse

variable (self : Goal → Parse Tree)

/-- The words that continue an operand as operators. -/
def operatorWords : List String := ["and", "or", "not", "in", "is", "if", "as"]

def constantOf? (word : String) : Option Kind :=
  if word = "None" then some .noneValue
  else if word = "True" then some .trueValue
  else if word = "False" then some .falseValue
  else none

def atom (ctx : Context) : Parse Tree := do
  let s ← get
  if s.isAtString then strings self ctx
  else if s.word != "" then
    match constantOf? s.word with
    | some kind => take kind s.word.length ctx.after
    | none => name ctx.after
  else if s.isAt "(" then parenthesized self ctx
  else if s.isAt "[" then list self ctx
  else if s.isAt "\x7b" then braced self ctx
  else
    let whole := Number.integerLength s.chars
    let broken := Number.floatLength s.chars
    if whole < broken then take .float broken ctx.after
    else if 0 < whole then take .integer whole ctx.after
    else if s.isAt "..." then take .ellipsis 3 ctx.after
    else fail

/-- An operand with the attributes, subscripts and calls that follow it. -/
def attached (ctx : Context) (t : Tree) : Parse Tree :=
  loop t fun t => do
    let s ← get
    if s.isAt "." then
      let dot ← mark "." .nothing
      let label ← childAs .attribute (name ctx.after)
      return some (.node .attribute (t.inField .object :: dot ++ label))
    else if s.isAt "[" then
      return some (.node .subscript (t.inField .value :: (← subscripts self ctx)))
    else if s.isAt "(" then
      let given ← childAs .arguments (arguments self true ctx.after)
      return some (.node .call (t.inField .function :: given))
    else return none

/-- Whether the word `await`, which has just been taken, is a name and not an operator: no operand
follows it. -/
def endsOperand (ctx : Context) (s : State) : Bool :=
  !s.isAtOperand || operatorWords.contains s.word ||
    (ctx.words.contains s.word && !s.isAtWord "async") || s.isAt "**" || (augmentation? s.chars).isSome

/-- Stars and the operand they stand before. Of several, each stars a larger part of it than the
next one. -/
def starred (ctx : Context) : Parse Tree := do
  let stars ← loop [] fun stars => do
    if ← query (·.isAt "*") then
      let star ← take .mark 1 .operand
      return some ((star :: (← extras)) :: stars)
    else return none
  match (← self (.unsigned ctx)).starred? stars.reverse with
  | some t => return t
  | none => fail

def unsigned (ctx : Context) : Parse Tree := do
  if ← query (·.isAtWord "await") then
    let word ← take .identifier 5 ctx.afterOrOperand
    if ← query (endsOperand ctx) then attached self ctx word
    else
      let awaited ← child (self (.operand 21 ctx))
      return .node .await (word.withKind .mark :: awaited)
  else
    attached self ctx (← atom self ctx)

def signed (ctx : Context) : Parse Tree := do
  let s ← get
  if s.isAt "+" || s.isAt "-" || s.isAt "~" then
    let sign ← take .mark 1 .operand
    let argument ← childAs .argument (self (.operand 21 ctx))
    return .node .unaryOperator (sign.inField .operator :: argument)
  else if s.isAt "*" then starred self ctx
  else self (.unsigned ctx)

/-- Operands joined by operators that bind at least as tightly as `power`. -/
def binary (power : Nat) (ctx : Context) : Parse Tree := do
  loop (← signed self ctx) fun left => do
    match binaryOperator? (← query (·.chars)) with
    | some (operator, p) =>
      if p < power then return none
      let sign ← token .mark operator.length .operand
      let right ← childAs .right (self (.operand (if operator = "**" then p else p + 1) ctx))
      return some (.node .binaryOperator
        (left.inField .left :: sign.map (.inField .operator) ++ right))
    | none => return none

end SymbolAtlas.Python.Grammar
