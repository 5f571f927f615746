import SymbolAtlas.Python.Grammar.SimpleStatement

/-! # Statements and blocks

Compound statements hold blocks: the rest of a line, deeper lines, or nothing at all. A parser of a
statement is told what may follow the statement's last line.
-/

namespace SymbolAtlas.Python.Grammar

open Parse

def blockStart : Demand := { lineEnd := true, indent := true, string := true }

def inBlock : Demand := { dedent := true, string := true }

variable (self : Demand → Parse (List Tree))

/-- Parts of a block, each read with the comments before it, up to the end of the block. -/
def untilDedent (part : Parse (List Tree)) (after : Demand) : Parse (List Tree) := do
  let (chunks, _) ← loop ([], true) fun (chunks, mayGoOn) => do
    if !mayGoOn then return none
    let es ← extras
    if ← query (·.isAtDedent) then return some (es :: chunks, false)
    else return some ((es ++ (← part)) :: chunks, true)
  dedent after
  return chunks.reverse.flatten

def emptyBlock (after : Demand) : Parse Tree := do
  let stop ← query (·.stop)
  lineEnd after
  return .leaf .block stop stop

def blockOf (place : Cursor) : List Tree → Tree
  | [] => .leaf .block place place
  | ts => .node .block ts

def block (after : Demand) : Parse Tree := do
  let s ← get
  if s.indent?.isSome then
    indent inBlock
    return blockOf s.stop (← untilDedent (self inBlock) after)
  else if s.isAtLineEnd then emptyBlock after
  else return .node .block (← simpleStatements after)

/-- A colon and the block after it, in a named role. -/
def suite (field : Field) (after : Demand) : Parse (List Tree) := do
  let colon ← mark ":" blockStart
  return colon ++ (← childAs field (block self after))

def plainSuite (after : Demand) : Parse (List Tree) := do
  let colon ← mark ":" blockStart
  return colon ++ (← child (block self after))

def condition (field : Field) : Parse (List Tree) :=
  childAs field (expression anyConstruct .plain)

def elseClause (after : Demand) : Parse Tree := do
  let word ← take .mark 4 .nothing
  return .node .elseClause (word :: (← suite self .body after))

def elseClause? (after : Demand) : Parse (List Tree) := do
  if ← query (·.isAtWord "else") then childAs .alternative (elseClause self after) else return []

def ifStatement (after : Demand) : Parse Tree := do
  let word ← take .mark 2 .operand
  let test ← condition .condition
  let body ← suite self .consequence after
  let chunks ← loop [] fun chunks => do
    if ← query (·.isAtWord "elif") then
      let clause : Parse Tree := do
        let word ← take .mark 4 .operand
        let test ← condition .condition
        return .node .elifClause (word :: test ++ (← suite self .consequence after))
      return some ((← childAs .alternative clause) :: chunks)
    else return none
  return .node .ifStatement (word :: test ++ body ++ chunks.reverse.flatten ++
    (← elseClause? self after))

/-- A statement `for`, after the word `async` if it has one. -/
def forStatement (front : List Tree) (after : Demand) : Parse Tree := do
  let word ← keyword "for" .operand
  let left ← childAs .left (targets anyConstruct)
  let inWord ← keyword "in" .operand
  let right ← childAs .right (expressions anyConstruct .plain)
  let body ← suite self .body after
  return .node .forStatement (front ++ word ++ left ++ inWord ++ right ++ body ++
    (← elseClause? self after))

def whileStatement (after : Demand) : Parse Tree := do
  let word ← take .mark 5 .operand
  let test ← condition .condition
  let body ← suite self .body after
  return .node .whileStatement (word :: test ++ body ++ (← elseClause? self after))

/-- The clauses `except` of a `try`, or its clauses `except*`. -/
def handlers (isGroup : Bool) (after : Demand) : Parse (List Tree) := do
  let comes (s : State) : Bool :=
    s.isAtWord "except" && (!isGroup || s.isAt "except*")
  let chunks ← loop [] fun chunks => do
    if !(← query comes) then return none
    let clause : Parse Tree := do
      let word ← take .mark (if isGroup then 7 else 6) .operand
      let caught ←
        if !isGroup && (← query (·.isAt ":")) then pure []
        else child (expression anyConstruct .plain)
      let renamed ←
        if !isGroup && (← query (·.isAt ",")) then
          let comma ← mark "," .operand
          pure (comma ++ (← child (expression anyConstruct .plain)))
        else pure []
      return .node (if isGroup then .exceptGroupClause else .exceptClause)
        (word :: caught ++ renamed ++ (← plainSuite self (after.or { handler := true })))
    return some ((← child clause) :: chunks)
  return chunks.reverse.flatten

def tryStatement (after : Demand) : Parse Tree := do
  let word ← take .mark 3 .nothing
  let body ← suite self .body { handler := true }
  let caught ← handlers self (← query (·.isAt "except*")) after
  let otherwise ←
    if !caught.isEmpty && (← query (·.isAtWord "else")) then child (elseClause self after)
    else pure []
  let last ←
    if ← query (·.isAtWord "finally") then
      child do
        let word ← take .mark 7 .nothing
        return .node .finallyClause (word :: (← plainSuite self after))
    else pure []
  require (!caught.isEmpty || !last.isEmpty)
  return .node .tryStatement (word :: body ++ caught ++ otherwise ++ last)

/-- The items of a `with`: the expressions listed, or if the list is one pair of parentheses, those
in it. -/
def withClause (list : Items) : Tree :=
  let item (t : Tree) : Tree :=
    if t.isNamed && !t.isExtra then .node .withItem [t.inField .value] else t
  let isPlain (t : Tree) : Bool := t.kind != .yieldExpression && t.kind != .listSplat
  match list.isSingle, list.trees with
  | true, [t] =>
    if t.kind == .tuple && !t.namedChildren.isEmpty && t.namedChildren.all isPlain then
      .node .withClause (t.children.map item)
    else .node .withClause [item t]
  | _, ts => .node .withClause (ts.map item)

def withStatement (front : List Tree) (after : Demand) : Parse Tree := do
  let word ← keyword "with" .operand
  let es ← extras
  let list ← items (child (expression anyConstruct .plain)) .operand (·.isAtOperand)
  let body ← suite self .body after
  return .node .withStatement (front ++ word ++ es ++ withClause list :: body)

def typeVariables : Parse (List Tree) := do
  if ← query (·.isAt "[") then childAs .typeParameters (typeParameters anyConstruct .nothing)
  else return []

def functionParameters : Parse Tree := do
  let bracket ← take .mark 1 Context.bracketed.after
  if ← query (·.isAt ")") then return .node .parameters (bracket :: (← mark ")" .nothing))
  let one := child (parameter anyConstruct true .bracketed)
  let list ← items one Context.bracketed.after fun s => !s.isAt ")"
  return .node .parameters (bracket :: list.trees ++ (← mark ")" .nothing))

/-- Whether a block on the line of a result type begins like a further type: with a name and type
arguments, or with a starred name that a type goes on from. -/
def resemblesType : Parse Bool := do
  let s ← get
  let word := s.word
  if word != "" && !contextualWords.contains word && !statementWords.contains word then
    let _ ← name Context.statement.after
    let t ← get
    set s
    return t.isAt "["
  else if s.isAt "*" then
    let starred ← starredName? .statement
    let t ← get
    set s
    return starred.isSome && (t.isAt "." || t.isAt "|" || t.isAt ":")
  else return false

def functionDefinition (front : List Tree) (after : Demand) : Parse Tree := do
  let word ← keyword "def" .nothing
  let label ← childAs .name (name .nothing)
  let generics ← typeVariables
  require (← query (·.isAt "("))
  let given ← childAs .parameters functionParameters
  let result ←
    if ← query (·.isAt "->") then
      let arrow ← mark "->" .operand
      pure (arrow ++ (← childAs .returnType (anyConstruct (.type false .plain))))
    else pure []
  let colon ← mark ":" blockStart
  if !result.isEmpty then require (!(← resemblesType))
  let body ← childAs .body (block self after)
  return .node .functionDefinition
    (front ++ word ++ label ++ generics ++ given ++ result ++ colon ++ body)

def classDefinition (after : Demand) : Parse Tree := do
  let word ← take .mark 5 .nothing
  let label ← childAs .name (name .nothing)
  let generics ← typeVariables
  let bases ←
    if ← query (·.isAt "(") then childAs .superclasses (arguments anyConstruct false .nothing)
    else pure []
  return .node .classDefinition (word :: label ++ generics ++ bases ++
    (← suite self .body after))

def asyncStatement (after : Demand) : Parse Tree := do
  let word ← take .mark 5 Context.statement.after
  let s ← get
  if s.isAtWord "def" then functionDefinition self [word] after
  else if s.isAtWord "for" then forStatement self [word] after
  else if s.isAtWord "with" then withStatement self [word] after
  else fail

def decoratedDefinition (after : Demand) : Parse Tree := do
  let decorator : Parse Tree := do
    let sign ← take .mark 1 .operand
    let value ← child lineExpression
    let es ← extras
    lineEnd .nothing
    return .node .decorator (sign :: value ++ es)
  let chunks ← loop [[← decorator]] fun chunks => do
    if ← query (·.isAt "@") then return some ((← child decorator) :: chunks) else return none
  let definition : Parse Tree := do
    let s ← get
    if s.isAtWord "class" then classDefinition self after
    else if s.isAtWord "def" then functionDefinition self [] after
    else if s.isAtWord "async" then
      let word ← take .mark 5 .nothing
      functionDefinition self [word] after
    else fail
  return .node .decoratedDefinition (chunks.reverse.flatten ++ (← childAs .definition definition))

def caseClause : Parse Tree := do
  require (← query (·.isAtWord "case"))
  let word ← take .mark 4 .operand
  let patterns ← items (child (anyConstruct (.casePattern .plain))) .operand fun s =>
    isAtPattern s && !s.isAtWord "if"
  let guard ←
    if ← query (·.isAtWord "if") then childAs .guard (ifClause anyConstruct .plain) else pure []
  return .node .caseClause (word :: patterns.trees ++ guard ++
    (← suite self .consequence { dedent := true }))

/-- Whether the word `match`, which has just been taken, begins a statement and is no name: an
operand follows it. -/
def beginsMatch (s : State) : Bool :=
  s.isAtOperand && !(s.isAt "**" || (augmentation? s.chars).isSome) &&
    (s.isAtWord "not" || !operatorWords.contains s.word)

def matchStatement (word : Tree) (after : Demand) : Parse Tree := do
  let subjects ← items (childAs .subject (expression anyConstruct .plain)) .operand
    (·.isAtOperand)
  let colon ← mark ":" { lineEnd := true, indent := true }
  let body : Parse Tree := do
    let s ← get
    if s.indent?.isSome then
      indent { dedent := true }
      return blockOf s.stop (← untilDedent (child (caseClause self)) after)
    else emptyBlock after
  return .node .matchStatement (word :: subjects.trees ++ colon ++ (← childAs .body body))

def statementStep (after : Demand) : Parse (List Tree) := do
  let s ← get
  let one (p : Parse Tree) : Parse (List Tree) := (fun t => [t]) <$> p
  if s.isAt "@" then one (decoratedDefinition self after)
  else
    match s.word with
    | "if" => one (ifStatement self after)
    | "for" => one (forStatement self [] after)
    | "while" => one (whileStatement self after)
    | "try" => one (tryStatement self after)
    | "with" => one (withStatement self [] after)
    | "def" => one (functionDefinition self [] after)
    | "class" => one (classDefinition self after)
    | "async" => either (one (asyncStatement self after)) (simpleStatements after)
    | "match" =>
      let word ← take .mark 5 endOrOperand
      if ← query beginsMatch then one (matchStatement self word after)
      else
        set s
        simpleStatements after
    | _ => simpleStatements after

def statementWithin : Nat → Demand → Parse (List Tree)
  | 0, _ => fail
  | n + 1, after => statementStep (statementWithin n) after

/-- The statements of a line, or one compound statement. -/
def statement (after : Demand) : Parse (List Tree) := fun s => statementWithin s.fuel after s

end SymbolAtlas.Python.Grammar
