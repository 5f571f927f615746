import SymbolAtlas.Python.Grammar.Expression

/-! # Types

A type is an expression, or one of a few forms that no expression has: a name with type arguments, a
starred name, and unions, members and constraints of those.
-/

namespace SymbolAtlas.Python.Grammar

open Parse

variable (self : Goal → Parse Tree)

/-- The words that are names only where nothing else is wanted. -/
def contextualWords : List String :=
  ["not", "lambda", "None", "True", "False", "print", "exec", "async", "await", "match", "type"]

def typeParameters (after : Demand) : Parse Tree := do
  let bracket ← take .mark 1 .operand
  let list ← items (child (self (.type true .bracketed))) afterComma (·.isAtOperand)
  return .node .typeParameter (bracket :: list.trees ++ (← mark "]" after))

/-- Whether an operand goes on after its name, apart from the marks that join types. -/
def goesOn (s : State) : Bool :=
  s.isAt "[" || s.isAt "(" || operatorWords.contains s.word || (comparison? s.chars).isSome ||
    (!s.isAt "|" && (binaryOperator? s.chars).isSome)

/-- A starred name, if one comes next and does not go on. The state is left alone otherwise. -/
def starredName? (ctx : Context) : Parse (Option Tree) := do
  let s ← get
  let attempt : Parse (Option Tree) := do
    let star ← take .mark 1 .operand
    let word ← query (·.word)
    if word = "" || contextualWords.contains word then return none
    let t ← child (name ctx.after)
    if ← query goesOn then return none
    return some (.node .splatType (star :: t))
  match ← attempt with
  | some t => return some t
  | none =>
    set s
    return none

/-- A name with type arguments, if one comes next. The state is left alone otherwise. -/
def genericType? (ctx : Context) : Parse (Option Tree) := do
  let s ← get
  if s.word = "" || contextualWords.contains s.word then return none
  let t ← name ctx.after
  if ← query (·.isAt "[") then
    return some (.node .genericType (t :: (← child (typeParameters self ctx.after))))
  else
    set s
    return none

/-- A type that is no union, member or constraint, unless it is an expression. -/
def simpleType (ctx : Context) : Parse Tree := do
  let s ← get
  if s.isAt "**" then
    let stars ← take .mark 2 .nothing
    return .node .splatType (stars :: (← child (name ctx.after)))
  else if s.isAt "*" then
    match ← starredName? ctx with
    | some t => return t
    | none => expression self ctx
  else
    match ← genericType? self ctx with
    | some t => return t
    | none => expression self ctx

/-- A type. A colon and another type may follow it where `isConstrainable`. -/
def type (isConstrainable : Bool) (ctx : Context) : Parse Tree := do
  let whole (t : Tree) : Tree := .node .type [t]
  loop (whole (← simpleType self ctx)) fun t => do
    let s ← get
    if s.isAt "|" then
      let bar ← mark "|" .operand
      let right ← child (whole <$> simpleType self ctx)
      return some (whole (.node .unionType (t :: bar ++ right)))
    else if s.isAt "." then
      let dot ← mark "." .nothing
      return some (whole (.node .memberType (t :: dot ++ (← child (name ctx.after)))))
    else if isConstrainable && s.isAt ":" then
      let colon ← mark ":" .operand
      let right ← child (self (.type true ctx))
      return some (whole (.node .constrainedType (t :: colon ++ right)))
    else return none

end SymbolAtlas.Python.Grammar
