import SymbolAtlas.Python.Grammar.Target
import SymbolAtlas.Python.Grammar.Text

/-! # Bracketed constructs

Tuples, lists, sets, dictionaries, comprehensions, arguments and subscripts.
-/

namespace SymbolAtlas.Python.Grammar

open Parse

variable (self : Goal → Parse Tree)

def expression (ctx : Context) : Parse Tree := self (.expression .conditional ctx)

def afterComma : Demand := { closer := true, string := true }

def splatElement (ctx : Context) : Parse Tree := do
  let star ← take .mark 1 .operand
  return .node .listSplat (star :: (← child (expression self ctx)))

def element (ctx : Context) : Parse Tree := do
  let s ← get
  if s.isAtWord "yield" then yieldExpression self ctx
  else if s.isAt "*" then splatElement self ctx
  else expression self ctx

def elementsAfter (first : Tree) : Parse Items :=
  itemsAfter [first] (child (element self .bracketed)) afterComma (·.isAtOperand)

/-! ## Comprehensions -/

def isAtClause (s : State) : Bool := s.isAtWord "for" || s.isAtWord "async"

def isBody (t : Tree) : Bool :=
  t.kind != .yieldExpression &&
    (t.kind != .listSplat || (t.children.getLast?.any fun e => e.takesStar))

/-- An operand with the stars before it, if any, but without a sign. -/
def bindable (ctx : Context) : Parse Tree := do
  if ← query (·.isAt "*") then self (.starred ctx) else self (.unsigned ctx)

/-- Something to bind: a bindable operand, a starred one, or a bracketed list of such. -/
def target (ctx : Context) : Parse Tree := do
  match (← bindable self ctx).asTarget? with
  | some t => return t
  | none => fail

/-- What `for` binds: one target, or several with commas. -/
def targets : Parse Tree := do
  let ctx : Context := { words := ["in"] }
  let list ← items (child (target self ctx)) .operand fun s => s.isAtOperand && !s.isAtWord "in"
  match list.isSingle, list.trees with
  | true, [t] => return t
  | _, ts => return .node .patternList ts

def forInClause : Parse Tree := do
  let async ← if ← query (·.isAtWord "async") then keyword "async" .nothing else pure []
  let word ← keyword "for" .operand
  let left ← childAs .left (targets self)
  let inWord ← keyword "in" .operand
  let ctx := Context.clause
  let right ← items (childAs .right (self (.source ctx))) afterComma fun s =>
    s.isAtOperand && !ctx.words.contains s.word
  return .node .forInClause (async ++ word ++ left ++ inWord ++ right.trees)

def ifClause (ctx : Context) : Parse Tree := do
  let word ← take .mark 2 .operand
  return .node .ifClause (word :: (← child (expression self ctx)))

def clauses : Parse (List Tree) := do
  let first ← child (forInClause self)
  let chunks ← loop [first] fun chunks => do
    let s ← get
    if isAtClause s then return some ((← child (forInClause self)) :: chunks)
    else if s.isAtWord "if" then
      return some ((← child (ifClause self .clause)) :: chunks)
    else return none
  return chunks.reverse.flatten

/-! ## Tuples, lists, sets and dictionaries -/

/-- What stands between parentheses: nothing, one expression, a generator or several elements. -/
def parenthesized (ctx : Context) : Parse Tree := do
  let bracket ← take .mark 1 afterComma
  if ← query (·.isAt ")") then
    return .node .tuple (bracket :: (← mark ")" ctx.after))
  let es ← extras
  let first ← element self .body
  let front := bracket :: es
  if isAtClause (← get) then
    require (isBody first)
    let cs ← clauses self
    return .node .generator
      (front ++ first.inField .body :: cs ++ (← mark ")" ctx.after))
  else
    let list ← elementsAfter self first
    let close ← mark ")" ctx.after
    let kind : Kind := if list.isSingle && isBody first || list.isSingle &&
      first.kind == .yieldExpression then .parenthesized else .tuple
    return .node kind (front ++ list.trees ++ close)

def list (ctx : Context) : Parse Tree := do
  let bracket ← take .mark 1 afterComma
  if ← query (·.isAt "]") then
    return .node .list (bracket :: (← mark "]" ctx.after))
  let es ← extras
  let first ← element self .body
  let front := bracket :: es
  if isAtClause (← get) then
    require (isBody first)
    let cs ← clauses self
    return .node .listComprehension
      (front ++ first.inField .body :: cs ++ (← mark "]" ctx.after))
  else
    let list ← elementsAfter self first
    return .node .list (front ++ list.trees ++ (← mark "]" ctx.after))

def unpacked (ctx : Context) : Parse Tree := do
  let stars ← take .mark 2 .operand
  return .node .dictionarySplat (stars :: (← child (expression self ctx)))

def pairOf (key : Tree) (ctx : Context) : Parse Tree := do
  let colon ← mark ":" .operand
  let value ← childAs .value (expression self ctx)
  return .node .pair (key.inField .key :: colon ++ value)

def entry : Parse Tree := do
  if ← query (·.isAt "**") then unpacked self .bracketed
  else pairOf self (← expression self .plain) .bracketed

/-- The entries of a dictionary that follow a first one, and the closing brace. -/
def dictionaryAfter (front : List Tree) (first : Tree) (ctx : Context) : Parse Tree := do
  let list ← itemsAfter [first] (child (entry self)) afterComma fun s => s.isAtOperand
  return .node .dictionary (front ++ list.trees ++ (← mark "\x7d" ctx.after))

def braced (ctx : Context) : Parse Tree := do
  let bracket ← take .mark 1 afterComma
  let s ← get
  if s.isAt "\x7d" then return .node .dictionary (bracket :: (← mark "\x7d" ctx.after))
  if s.isAt "," then
    let comma ← mark "," Context.bracketed.after
    return .node .dictionary (bracket :: comma ++ (← mark "\x7d" ctx.after))
  let front := bracket :: (← extras)
  if s.isAt "**" then return ← dictionaryAfter self front (← unpacked self .bracketed) ctx
  let first ← element self .body
  if isBody first && (← query (·.isAt ":")) then
    let pair ← pairOf self first .body
    if isAtClause (← get) then
      let cs ← clauses self
      return .node .dictionaryComprehension
        (front ++ pair.inField .body :: cs ++ (← mark "\x7d" ctx.after))
    else dictionaryAfter self front pair ctx
  else if isAtClause (← get) then
    require (isBody first)
    let cs ← clauses self
    return .node .setComprehension
      (front ++ first.inField .body :: cs ++ (← mark "\x7d" ctx.after))
  else
    let list ← elementsAfter self first
    return .node .set (front ++ list.trees ++ (← mark "\x7d" ctx.after))

/-! ## Arguments and subscripts -/

def argument (ctx : Context) : Parse Tree := do
  let s ← get
  if s.isAt "**" then unpacked self ctx
  else if s.isAt "*" then splatElement self ctx
  else
    let value ← expression self ctx
    if value.kind == .identifier && (← query (·.isAt "=")) then
      let equals ← mark "=" .operand
      return .node .keywordArgument (value.inField .name :: equals ++
        (← childAs .value (expression self .bracketed)))
    else return value

/-- Arguments in parentheses. Where `mayGenerate`, the only one may be a generator without
parentheses of its own. -/
def arguments (mayGenerate : Bool) (after : Demand) : Parse Tree := do
  let bracket ← take .mark 1 afterComma
  let s ← get
  if s.isAt ")" then return .node .argumentList (bracket :: (← mark ")" after))
  if s.isAt "," then
    let comma ← mark "," Context.bracketed.after
    return .node .argumentList (bracket :: comma ++ (← mark ")" after))
  let front := bracket :: (← extras)
  let first ← argument self .body
  if mayGenerate && isAtClause (← get) then
    require (first.kind != .keywordArgument && first.kind != .dictionarySplat && isBody first)
    let cs ← clauses self
    return .node .generator (front ++ first.inField .body :: cs ++ (← mark ")" after))
  else
    let list ← itemsAfter [first] (child (argument self .bracketed)) afterComma (·.isAtOperand)
    return .node .argumentList (front ++ list.trees ++ (← mark ")" after))

def subscriptElement : Parse Tree := do
  let ctx := Context.bracketed
  let bound : Parse (List Tree) := do
    if ← query (·.isAtOperand) then child (expression self ctx) else return []
  let first ← bound
  if ← query (·.isAt ":") then
    let colon ← mark ":" afterComma
    let second ← bound
    let rest ←
      if ← query (·.isAt ":") then
        let colon ← mark ":" afterComma
        pure (colon ++ (← bound))
      else pure []
    return .node .slice (first ++ colon ++ second ++ rest)
  else
    match first with
    | [t] => return t
    | _ => fail

def subscripts (ctx : Context) : Parse (List Tree) := do
  let bracket ← mark "[" .operand
  let list ← items (childAs .subscript (subscriptElement self)) afterComma fun s =>
    s.isAtOperand || s.isAt ":"
  return bracket ++ list.trees ++ (← mark "]" ctx.after)

end SymbolAtlas.Python.Grammar
