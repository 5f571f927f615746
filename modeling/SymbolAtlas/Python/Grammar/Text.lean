import SymbolAtlas.Python.Grammar.Goal

/-! # Strings

A string's body is read piece by piece and not token by token: nothing in it is a blank. Braces in
interpolated text hold expressions, and after a colon a format in which braces hold expressions
again.
-/

namespace SymbolAtlas.Python.Grammar

open Parse

variable (self : Goal → Parse Tree)

/-- A list of expressions: the expression itself if there is one and no comma. -/
def expressions (ctx : Context) : Parse Tree := do
  let list ← items (child (self (.expression .conditional ctx))) ctx.afterOrOperand fun s =>
    s.isAtOperand && !ctx.words.contains s.word
  match list.isSingle, list.trees with
  | true, [t] => return t
  | _, ts => return .node .expressionList ts

def yieldExpression (ctx : Context) : Parse Tree := do
  let word ← take .mark 5 ctx.afterOrOperand
  if ← query (·.isAtWord "from") then
    let source ← keyword "from" .operand
    return .node .yieldExpression (word :: source ++
      (← child (self (.expression .conditional ctx))))
  else if ← query (·.isAtOperand) then
    return .node .yieldExpression (word :: (← child (expressions self ctx)))
  else return .node .yieldExpression [word]

def textRun (opening : Opening) : Parse Tree := do
  let start ← query (·.start)
  let children ← loop [] fun children => do
    let piece ← query fun s => Piece.read opening s.chars
    match piece with
    | .text length =>
      let _ ← takeRaw .stringContent length
      return some children
    | .backslash =>
      let _ ← takeRaw .stringContent 1
      return some children
    | .escape length => return some ((← takeRaw .escapeSequence length) :: children)
    | .brace => return some ((← takeRaw .escapedBrace 2) :: children)
    | .close _ | .other => return none
  return ⟨.stringContent, none, start, ← query (·.start), children.reverse⟩

/-- Step over filler without looking for a token. -/
def skipFiller : Parse Unit :=
  modify fun s => { s with start := s.start.advance (s.chars.takeWhile isFiller).length }

/-- The body of a string and its closing mark, in reverse. -/
def stringBody (opening : Opening) (front : List Tree) : Parse (List Tree) := do
  let (children, isClosed) ← loop (front, false) fun (children, isClosed) => do
    if isClosed then return none
    match ← query fun s => Piece.read opening s.chars with
    | .close length => return some ((← takeRaw .stringEnd length) :: children, true)
    | .other =>
      skipFiller
      let s ← get
      if s.isAt "#" then
        return some ((← takeRaw .comment (commentLength s.chars)) :: children, false)
      else
        match continuationLength? s.chars with
        | some length => return some ((← takeRaw .continuation length) :: children, false)
        | none =>
          require (s.isAt "\x7b")
          return some ((← self (.interpolation .interpolation)) :: children, false)
    | _ => return some ((← textRun opening) :: children, false)
  require isClosed
  return children.reverse

def string (demand : Demand) : Parse Tree := do
  match ← query (·.ahead) with
  | .string opening length =>
    let start ← takeRaw .stringStart length
    modify fun s => { s with inFormat := opening.isFormat }
    let children ← stringBody self opening [start]
    modify fun s => { s with inFormat := false }
    look demand
    return .node .string children
  | _ => fail

def strings (ctx : Context) : Parse Tree := do
  let first ← string self ctx.afterOrOperand
  let chunks ← loop [[first]] fun chunks => do
    if ← query (·.isAtString) then
      return some ((← child (string self ctx.afterOrOperand)) :: chunks)
    else return none
  match chunks with
  | [_] => return first
  | _ => return .node .concatenatedString chunks.reverse.flatten

def formatSpecifier : Parse Tree := do
  let colon ← takeRaw .mark 1
  let children ← loop [colon] fun children => do
    let plain ← query fun s => (s.chars.takeWhile fun c => c != '{' && c != '}').length
    let _ ← takeRaw .mark plain
    if ← query (·.isAt "\x7b") then
      return some ((← self (.interpolation .formatExpression)) :: children)
    else return none
  return .node .formatSpecifier children.reverse

/-- A braced expression in interpolated text: the expression, then perhaps an equals sign, a
conversion and a format. -/
def interpolation (kind : Kind) : Parse Tree := do
  let brace ← take .mark 1 .operand
  let ctx := Context.bracketed
  let value ← childAs .expression <| do
    if ← query (·.isAtWord "yield") then yieldExpression self ctx else expressions self ctx
  let equals ← mark? "=" ctx.after
  let isConverted ← query fun s =>
    s.isAt "!" && s.chars.tail.head?.any fun c => 'a' ≤ c && c ≤ 'z'
  let conversion ←
    if isConverted then (·.map (.inField .typeConversion)) <$> token .typeConversion 2 ctx.after
    else pure []
  let format ←
    if ← query (·.isAt ":") then childAs .formatSpecifier (formatSpecifier self) else pure []
  require (← query (·.isAt "\x7d"))
  let close ← child (takeRaw .mark 1)
  return .node kind (brace :: value ++ equals ++ conversion ++ format ++ close)

end SymbolAtlas.Python.Grammar
