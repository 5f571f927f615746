import SymbolAtlas.Python.Grammar.Operand

/-! # Expressions

Comparisons, negations, conjunctions, disjunctions, renamings and conditionals, from the tightest
to the loosest, and the lambdas and named expressions that may stand wherever a negation may.
-/

namespace SymbolAtlas.Python.Grammar

open Parse

variable (self : Goal → Parse Tree)

/-- The operator of a comparison, if one comes next; `not in` and `is not` are one operator. -/
def comparing : Parse (List Tree) := do
  let s ← get
  if s.isAtWord "in" then keyword "in" .operand
  else if s.isAtWord "is" then
    let word ← keyword "is" .operand
    if ← query (·.isAtWord "not") then return word ++ (← keyword "not" .operand) else return word
  else if s.isAtWord "not" then
    let word ← keyword "not" .nothing
    return word ++ (← keyword "in" .operand)
  else
    match comparison? s.chars with
    | some text => token .mark text.length .operand
    | none => return []

def comparison (ctx : Context) : Parse Tree := do
  let first ← self (.operand 0 ctx)
  let chunks ← loop [[first]] fun chunks => do
    match ← comparing with
    | [] => return none
    | operator =>
      let right ← child (self (.operand 0 ctx))
      return some (right :: operator.map (.inField .operators) :: chunks)
  match chunks with
  | [_] => return first
  | _ => return .node .comparisonOperator chunks.reverse.flatten

/-! ## Parameters -/

/-- The bindable operand after the star, or two, of a parameter. -/
def starredParameter (kind : Kind) (stars : Tree) (ctx : Context) : Parse Tree := do
  let bound ← child (bindable self ctx)
  require (bound.any fun t => t.isBindable || t.kind == .listSplat && 0 < t.starCapacity)
  return .node kind (stars :: bound)

def parameterType (isTyped : Bool) (ctx : Context) : Parse (List Tree) := do
  if isTyped && (← query (·.isAt ":")) then
    let colon ← mark ":" .operand
    return colon ++ (← childAs .type (self (.type true ctx)))
  else return []

def parameterDefault (ctx : Context) : Parse (List Tree) := do
  if ← query (·.isAt "=") then
    let equals ← mark "=" .operand
    return equals ++ (← childAs .value (expression self ctx))
  else return []

/-- A parameter that takes its argument apart. -/
def tupleParameter (ctx : Context) : Parse Tree := do
  let bracket ← take .mark 1 afterComma
  let front ←
    if ← query (·.isAt ")") then pure []
    else (·.trees) <$> items (child (target self .bracketed)) afterComma (·.isAtOperand)
  return .node .tuplePattern (bracket :: front ++ (← mark ")" ctx.after))

/-- A parameter. Only those of a function may have types. -/
def parameter (isTyped : Bool) (ctx : Context) : Parse Tree := do
  let s ← get
  if s.isAt "**" then
    let stars ← take .mark 2 .operand
    let t ← starredParameter self .dictionarySplatPattern stars ctx
    match ← parameterType self isTyped ctx with
    | [] => return t
    | type => return .node .typedParameter (t :: type)
  else if s.isAt "*" then
    let star ← take .mark 1 ctx.afterOrOperand
    if ← query fun s => s.isAt "," || s.isAt ")" || s.isAt ":" then
      return star.withKind .keywordSeparator
    let t ← starredParameter self .listSplatPattern star ctx
    match ← parameterType self isTyped ctx with
    | [] => return t
    | type => return .node .typedParameter (t :: type)
  else if s.isAt "/" then take .positionalSeparator 1 ctx.after
  else if s.isAt "(" then
    let t ← tupleParameter self ctx
    match ← parameterDefault self ctx with
    | [] => return t
    | value => return .node .defaultParameter (t.inField .name :: value)
  else
    let t ← name ctx.after
    let type ← parameterType self isTyped ctx
    let value ← parameterDefault self ctx
    match type, value with
    | [], [] => return t
    | [], _ => return .node .defaultParameter (t.inField .name :: value)
    | _, [] => return .node .typedParameter (t :: type)
    | _, _ => return .node .typedDefaultParameter (t.inField .name :: type ++ value)

def lambdaParameters : Parse (List Tree) := do
  if ← query (·.isAt ":") then return []
  let es ← extras
  let list ← items (child (parameter self false .plain)) .nothing fun s => !s.isAt ":"
  return es ++ [(Tree.node .lambdaParameters list.trees).inField .parameters]

def lambda (body : Parse Tree) : Parse Tree := do
  let word ← take .mark 6 .nothing
  let given ← lambdaParameters self
  let colon ← mark ":" .operand
  return .node .lambda (word :: given ++ colon ++ (← childAs .body body))

/-! ## Levels -/

/-- An expression of the tightest level: a negation, a lambda, a comparison or a named
expression. -/
def negation (ctx : Context) : Parse Tree := do
  let s ← get
  if s.isAtWord "not" then
    let word ← take .mark 3 .operand
    return .node .notOperator (word :: (← childAs .argument (self (.expression .negation ctx))))
  else if s.isAtWord "lambda" then
    lambda self (expression self { ctx with isConditional := true })
  else
    let t ← comparison self ctx
    if t.kind == .identifier && (← query (·.isAt ":=")) then
      let sign ← mark ":=" .operand
      return .node .namedExpression (t.inField .name :: sign ++
        (← childAs .value (self (.expression .disjunction ctx))))
    else return t

/-- The rest of a conditional after the expression before `if`. -/
def conditionalAfter (value : Tree) (ctx : Context) : Parse Tree := do
  let ifWord ← keyword "if" .operand
  let condition ← child (expression self { words := ["else"] })
  let elseWord ← keyword "else" .operand
  return .node .conditional (value :: ifWord ++ condition ++ elseWord ++
    (← child (expression self ctx)))

def expressionAt (level : Level) (ctx : Context) : Parse Tree := do
  loop (← negation self ctx) fun left => do
    let s ← get
    let join (word : String) (tighter : Level) : Parse (Option Tree) := do
      let operator ← keyword word .operand
      let right ← childAs .right (self (.expression tighter ctx))
      return some (.node .booleanOperator
        (left.inField .left :: operator.map (.inField .operator) ++ right))
    if s.isAtWord "and" && level.includes .conjunction then join "and" .negation
    else if s.isAtWord "or" && level.includes .disjunction then join "or" .conjunction
    else if s.isAtWord "as" && level.includes .capture then
      let word ← keyword "as" .operand
      let target ← child (self (.expression .disjunction ctx))
      return some (.node .asPattern (left :: word ++ target.map fun t =>
        if t.isExtra then t else (Tree.node .asPatternTarget [t]).inField .rename))
    else if s.isAtWord "if" && level.includes .conditional && ctx.isConditional then
      some <$> conditionalAfter self left ctx
    else return none

def source (ctx : Context) : Parse Tree := do
  if ← query (·.isAtWord "lambda") then lambda self (self (.source ctx)) else expression self ctx

end SymbolAtlas.Python.Grammar
