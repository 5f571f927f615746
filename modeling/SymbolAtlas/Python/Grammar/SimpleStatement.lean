import SymbolAtlas.Python.Grammar.Assignment

/-! # Simple statements

Statements that fit on one line. The words `print`, `exec` and `type` begin statements of their own
only where the rest of the line fits such a statement; elsewhere they are names.
-/

namespace SymbolAtlas.Python.Grammar

open Parse

def lineExpression : Parse Tree := expression anyConstruct .statement

def lineExpressions : Parse Tree := expressions anyConstruct .statement

/-- What may follow a keyword that needs no operand. -/
def endOrOperand : Demand := Context.statement.afterOrOperand

/-- Expressions with commas between them and none after the last. -/
def strictList : Parse (List Tree) :=
  (·.trees) <$> items (child lineExpression) .operand fun _ => true

/-! ## Imports -/

def importPrefix : Parse Tree := do
  let first ← take .mark 1 .nothing
  let dots ← loop [first] fun dots => do
    if ← query (·.isAt ".") then return some ((← mark "." .nothing).reverse ++ dots) else return none
  return .node .importPrefix dots.reverse

def relativeImport : Parse Tree := do
  let dots ← importPrefix
  let s ← get
  if s.word = "" || s.isAtWord "import" then return .node .relativeImport [dots]
  else return .node .relativeImport (dots :: (← child (dottedName .nothing)))

def importedName (after : Demand) : Parse Tree := do
  let path ← dottedName after
  if ← query (·.isAtWord "as") then
    let word ← keyword "as" .nothing
    let rename ← childAs .rename (name after)
    return .node .renamedImport (path.inField .name :: word ++ rename)
  else return path

def importList (after : Demand) : Parse (List Tree) :=
  (·.trees) <$> items (childAs .name (importedName after)) after fun s => s.word != ""

def importNames : Parse (List Tree) := do
  if ← query (·.isAt "(") then
    let bracket ← mark "(" .nothing
    let names ← importList Context.bracketed.after
    return bracket ++ names ++ (← mark ")" Context.statement.after)
  else importList Context.statement.after

def plainImport : Parse Tree := do
  let word ← take .mark 6 .nothing
  return .node .plainImport (word :: (← importList Context.statement.after))

def fromImport : Parse Tree := do
  let word ← take .mark 4 .nothing
  let s ← get
  if s.isAtWord "__future__" then
    let future ← keyword "__future__" .nothing
    let importWord ← keyword "import" .nothing
    return .node .futureImport (word :: future ++ importWord ++ (← importNames))
  else
    let path ← childAs .moduleName (if s.isAt "." then relativeImport else dottedName .nothing)
    let importWord ← keyword "import" .nothing
    let names ←
      if ← query (·.isAt "*") then token .wildcardImport 1 Context.statement.after
      else importNames
    return .node .fromImport (word :: path ++ importWord ++ names)

/-! ## Other statements -/

def keywordStatement (kind : Kind) (word : String) : Parse Tree := do
  return .node kind [← take .mark word.length Context.statement.after]

def namesStatement (kind : Kind) (word : String) : Parse Tree := do
  let first ← take .mark word.length .nothing
  let names ← items (child (name Context.statement.after)) .nothing fun _ => true
  return .node kind (first :: names.trees)

def returnStatement : Parse Tree := do
  let word ← take .mark 6 endOrOperand
  if ← query (·.isAtOperand) then
    return .node .returnStatement (word :: (← child lineExpressions))
  else return .node .returnStatement [word]

def raiseStatement : Parse Tree := do
  let word ← take .mark 5 endOrOperand
  let s ← get
  let raised ←
    if s.isAtOperand && !s.isAtWord "from" then
      child (expressions anyConstruct { lineEnd := true, words := ["from"] })
    else pure []
  if ← query (·.isAtWord "from") then
    let fromWord ← keyword "from" .operand
    return .node .raiseStatement (word :: raised ++ fromWord ++
      (← childAs .cause lineExpression))
  else return .node .raiseStatement (word :: raised)

/-- Expressions, or an assignment. -/
def expressionStatement : Parse Tree := do
  if ← query (·.isAtWord "yield") then
    return .node .expressionStatement [← yieldExpression anyConstruct .statement]
  else
    let list ← leadingItems anyConstruct .plain
    if ← query isAtAssignment then
      return .node .expressionStatement [← assignmentOf anyConstruct list]
    else return .node .expressionStatement list.trees

/-- A parser whose result a simple statement may end with. -/
def complete (p : Parse Tree) : Parse Tree := do
  let t ← p
  require (← query isAtStatementEnd)
  return t

/-- Whether a word comes next that continues an operand and begins none. -/
def isAtOperatorWord (s : State) : Bool := operatorWords.contains s.word && !s.isAtWord "not"

/-- A statement `print >>file, a, b`, an expression that uses the name `print`, or a statement
`print a, b`. -/
def printStatement : Parse Tree := do
  let expressionFirst : Parse Tree := complete expressionStatement
  let printed (front : List Tree) : Parse Tree := do
    let list ← items (childAs .argument lineExpression) endOrOperand (·.isAtOperand)
    return .node .printStatement (front ++ list.trees)
  let s ← get
  let word ← take .mark 5 endOrOperand
  let t ← get
  if t.isAt ">>" && (augmentation? t.chars).isNone then
    let es ← extras
    let arrows ← take .mark 2 .operand
    let file ← child lineExpression
    let chevron := Tree.node .chevron (arrows :: file)
    if ← query (·.isAt ",") then
      let comma ← mark "," endOrOperand
      if ← query (·.isAtOperand) then printed (word :: es ++ chevron :: comma)
      else return .node .printStatement (word :: es ++ chevron :: comma)
    else return .node .printStatement (word :: es ++ [chevron])
  else
    set s
    either expressionFirst do
      let word ← take .mark 5 endOrOperand
      require (!(← query isAtOperatorWord))
      printed [word]

/-- A statement `exec code in scope`, or an expression that uses the name `exec`. -/
def execStatement : Parse Tree := do
  let s ← get
  let word ← take .mark 4 endOrOperand
  let t ← get
  let after := Context.statement.after
  if t.isAtString || (t.word != "" && !operatorWords.contains t.word) then
    let code ← childAs .code (if t.isAtString then string anyConstruct after else name after)
    if ← query (·.isAtWord "in") then
      let inWord ← keyword "in" .operand
      return .node .execStatement (word :: code ++ inWord ++ (← strictList))
    else return .node .execStatement (word :: code)
  else
    set s
    expressionStatement

/-- A statement `type A = B`, or an expression that uses the name `type`. -/
def typeStatement : Parse Tree :=
  let definition : Parse Tree := do
    let word ← take .mark 4 endOrOperand
    require (!(← query isAtOperatorWord))
    let left ← child (anyConstruct (.type true .plain))
    let equals ← mark "=" .operand
    let right ← child (anyConstruct (.type true .statement))
    return .node .typeAlias (word :: left ++ equals ++ right)
  either (complete definition) expressionStatement

def statementWords : List String :=
  ["import", "from", "assert", "return", "del", "raise", "pass", "break", "continue", "global",
    "nonlocal", "yield"]

def simpleStatement : Parse Tree := do
  let s ← get
  match s.word with
  | "import" => plainImport
  | "from" => fromImport
  | "print" => printStatement
  | "assert" =>
    let word ← take .mark 6 .operand
    return .node .assertStatement (word :: (← strictList))
  | "return" => returnStatement
  | "del" =>
    let word ← take .mark 3 .operand
    return .node .deleteStatement (word :: (← child lineExpressions))
  | "raise" => raiseStatement
  | "pass" => keywordStatement .passStatement "pass"
  | "break" => keywordStatement .breakStatement "break"
  | "continue" => keywordStatement .continueStatement "continue"
  | "global" => namesStatement .globalStatement "global"
  | "nonlocal" => namesStatement .nonlocalStatement "nonlocal"
  | "exec" => execStatement
  | "type" => typeStatement
  | _ => expressionStatement

/-- The simple statements of a line, with semicolons between them and perhaps after the last. -/
def simpleStatements (after : Demand) : Parse (List Tree) := do
  let first ← child simpleStatement
  let (chunks, _) ← loop ([first], true) fun (chunks, mayGoOn) => do
    let s ← get
    if !mayGoOn || !s.isAt ";" then return none
    let semicolon ← mark ";" endOrOperand
    if ← query (·.isAtLineEnd) then return some (semicolon :: chunks, false)
    else return some ((← child simpleStatement) :: semicolon :: chunks, true)
  let es ← extras
  lineEnd after
  return chunks.reverse.flatten ++ es

end SymbolAtlas.Python.Grammar
