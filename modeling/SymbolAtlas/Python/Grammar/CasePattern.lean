import SymbolAtlas.Python.Grammar.Operand

/-! # Patterns of a `case`

Literals, dotted names, classes with arguments, bracketed and starred patterns, alternatives, and a
pattern under another name. An underscore matches anything and is no name.
-/

namespace SymbolAtlas.Python.Grammar

open Parse

variable (self : Goal → Parse Tree)

def dottedName (after : Demand) : Parse Tree := do
  let first ← name after
  let chunks ← loop [[first]] fun chunks => do
    if ← query (·.isAt ".") then
      let dot ← mark "." .nothing
      return some ((← child (name after)) :: dot :: chunks)
    else return none
  return .node .dottedName chunks.reverse.flatten

def number (after : Demand) : Parse Tree := do
  let s ← get
  let whole := Number.integerLength s.chars
  let broken := Number.floatLength s.chars
  if whole < broken then take .float broken after
  else if 0 < whole then take .integer whole after
  else fail

/-- A number with its sign, if any, or the sum or difference of two. -/
def numberPattern (ctx : Context) : Parse (List Tree) := do
  let sign ← mark? "-" .nothing
  let first ← child (number ctx.after)
  let s ← get
  if s.isAt "+" || s.isAt "-" then
    let joint ← token .mark 1 .nothing
    return [.node .complexPattern (sign ++ first ++ joint ++ (← child (number ctx.after)))]
  else return sign ++ first

def isAtPattern (s : State) : Bool :=
  s.isAtString || s.word != "" || ["(", "[", "\x7b", "-", "*"].any s.isAt ||
    0 < Number.integerLength s.chars || 0 < Number.floatLength s.chars

/-- Patterns in brackets, after the opening one. -/
def patternsUntil (close : String) (part : Parse Tree) (after : Demand) :
    Parse (List Tree) := do
  let parts ←
    if ← query (·.isAt close) then pure []
    else (·.trees) <$> items (child part) afterComma isAtPattern
  return parts ++ (← mark close after)

def splatPattern (ctx : Context) : Parse Tree := do
  let isDouble ← query (·.isAt "**")
  let star ← take .mark (if isDouble then 2 else 1) .nothing
  if ← query (·.isAtWord "_") then
    return .node .splatPattern (star :: (← keyword "_" ctx.after))
  else return .node .splatPattern (star :: (← child (name ctx.after)))

/-- A dotted name, or a class with patterns for its arguments. -/
def classPattern (ctx : Context) : Parse Tree := do
  let label ← dottedName ctx.after
  if ← query (·.isAt "(") then
    let bracket ← mark "(" afterComma
    return .node .classPattern (label :: bracket ++
      (← patternsUntil ")" (self (.casePattern .bracketed)) ctx.after))
  else return label

/-- An entry of a mapping pattern: a key and a pattern for its value, or a starred name. -/
def entryPattern : Parse Tree := do
  if ← query (·.isAt "*") then splatPattern .bracketed
  else
    let key ← self (.simplePattern .plain)
    let colon ← mark ":" .operand
    let value ← childAs .value (self (.casePattern .bracketed))
    return .node .pair (key.children.map (.inField .key) ++ colon ++ value)

/-- A pattern that is neither an alternative, renamed nor an argument with its name. A signed number
is more than one tree. -/
def closedPattern (ctx : Context) : Parse (List Tree) := do
  let s ← get
  let bracketed (kind : Kind) (close : String) (part : Parse Tree) : Parse (List Tree) := do
    let bracket ← take .mark 1 afterComma
    return [.node kind (bracket :: (← patternsUntil close part ctx.after))]
  if s.isAtString then return [← strings self ctx]
  else if s.isAtWord "_" then return [← take .mark 1 ctx.after]
  else if s.word != "" then
    match constantOf? s.word with
    | some kind => return [← take kind s.word.length ctx.after]
    | none => return [← classPattern self ctx]
  else if s.isAt "(" then bracketed .tuplePattern ")" (self (.casePattern .bracketed))
  else if s.isAt "[" then bracketed .listPattern "]" (self (.casePattern .bracketed))
  else if s.isAt "\x7b" then bracketed .dictPattern "\x7d" (entryPattern self)
  else if s.isAt "*" then return [← splatPattern ctx]
  else numberPattern ctx

/-- Alternatives with bars between them, or one pattern; the trees are the children of the node. -/
def simplePattern (ctx : Context) : Parse Tree := do
  let first ← closedPattern self ctx
  let chunks ← loop [first] fun chunks => do
    if ← query (·.isAt "|") then
      let bar ← mark "|" .operand
      let es ← extras
      return some ((es ++ (← closedPattern self ctx)) :: bar :: chunks)
    else return none
  match chunks with
  | [_] => return .node .casePattern first
  | _ => return .node .casePattern [.node .unionPattern chunks.reverse.flatten]

def loneName? (t : Tree) : Option Tree :=
  match t.children with
  | [⟨.dottedName, _, _, _, [label]⟩] => some label
  | _ => none

def casePattern (ctx : Context) : Parse Tree := do
  let pattern ← self (.simplePattern ctx)
  let first ←
    match loneName? pattern, ← query (·.isAt "=") with
    | some label, true =>
      let equals ← mark "=" .operand
      let es ← extras
      let value ← self (.simplePattern ctx)
      pure (Tree.node .casePattern [.node .keywordPattern (label :: equals ++ es ++ value.children)])
    | _, _ => pure pattern
  loop first fun t => do
    if ← query (·.isAtWord "as") then
      let word ← keyword "as" .nothing
      let label ← child (name ctx.after)
      return some (.node .casePattern [.node .asPattern (t :: word ++ label)])
    else return none

end SymbolAtlas.Python.Grammar
