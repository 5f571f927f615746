import SymbolAtlas.Python.Grammar.CasePattern
import SymbolAtlas.Python.Grammar.Types

/-! # Assignments

A list of expressions at the start of a statement turns out to be the target of an assignment when
an equals sign, a colon or an augmented operator follows it. What stands on the right may be an
assignment again.
-/

namespace SymbolAtlas.Python.Grammar

open Parse

variable (self : Goal → Parse Tree)

def statementItems : Parse Items :=
  let ctx := Context.statement
  items (child (expression self ctx)) ctx.afterOrOperand (·.isAtOperand)

def targetOf? (list : Items) : Option Tree :=
  match list.isSingle, list.trees with
  | true, [t] => t.asTarget?
  | _, ts => (Tree.asTargets? ts).map fun ts => .node .patternList ts

def assigned : Parse (List Tree) := childAs .right (self .rightSide)

/-- Whether a sign that makes the expressions before it targets comes next. -/
def isAtAssignment (s : State) : Bool :=
  s.isAt "=" || s.isAt ":" || (augmentation? s.chars).isSome

/-- The assignment whose left side has been read. -/
def assignmentOf (list : Items) : Parse Tree := do
  let s ← get
  match targetOf? list with
  | none => fail
  | some target =>
    let left := target.inField .left
    match augmentation? s.chars with
    | some sign =>
      let operator ← token .mark sign.length .operand
      return .node .augmentedAssignment
        (left :: operator.map (.inField .operator) ++ (← assigned self))
    | none =>
      if s.isAt "=" then
        let equals ← mark "=" .operand
        return .node .assignment (left :: equals ++ (← assigned self))
      else
        let colon ← mark ":" .operand
        let type ← childAs .type (self (.type true .statement))
        let value ←
          if ← query (·.isAt "=") then
            let equals ← mark "=" .operand
            pure (equals ++ (← assigned self))
          else pure []
        return .node .assignment (left :: colon ++ type ++ value)

/-! ## Lists of targets

Expressions are read first, and then taken for targets if a sign follows. But once a comma or a
bracket shows that targets are being listed, the source may go on as only a list of targets can:
the line may end before the sign that must follow, and every word is a name.
-/

/-- Whether a line ends, and the next one begins with a mark that continues targets. -/
def continuesBelow (s : State) : Bool :=
  s.isAtLineEnd && (Margin.read true s.stop.rest).any fun m =>
    m.rest.head?.any ['=', ':', ',', '.'].contains || (augmentation? m.rest).isSome

def isAtStatementEnd (s : State) : Bool := s.isAtLineEnd || s.isAt ";"

/-- Whether a bracket comes next that something is in. -/
def isAtFilledBracket (s : State) : Bool :=
  (s.isAt "(" || s.isAt "[") &&
    !((s.chars.tail.dropWhile isFiller).head?.any fun c => c == ')' || c == ']')

/-- Targets with a sign after them. Several of them may also end the statement if a line may end in
`rest`. The first one ends where its line does unless it is bracketed, and its words are not yet
names only. -/
def targetItems (rest : Context) : Parse Items := do
  require (← query fun s => !s.isAtWord "not" && !s.isAtWord "lambda")
  let first : Parse Tree := do
    if ← query isAtFilledBracket then atom self .plain else bindable self .statement
  let list ← itemsAfter (← child first) (child (bindable self rest)) rest.afterOrOperand
    (·.isAtOperand)
  let s ← get
  require (isAtAssignment s || rest.lineEnd && !list.isSingle && isAtStatementEnd s)
  require (targetOf? list).isSome
  return list

/-- Expressions or targets at the start of a statement or on the right of an assignment. -/
def leadingItems (rest : Context) : Parse Items := do
  let s ← get
  let asExpressions : Parse Items := do
    let list ← statementItems self
    let t ← get
    require (isAtStatementEnd t || isAtAssignment t && (targetOf? list).isSome)
    return list
  match asExpressions s with
  | .error e => afterFailure e (targetItems self rest)
  | .ok (list, t) =>
    let keep : Parse Items := do
      set t
      return list
    if continuesBelow t && (targetOf? list).isSome then either (targetItems self rest) keep
    else keep

def rightSide : Parse Tree := do
  if ← query (·.isAtWord "yield") then yieldExpression self .statement
  else
    let list ← leadingItems self .statement
    if ← query isAtAssignment then assignmentOf self list
    else
      match list.isSingle, list.trees with
      | true, [t] => return t
      | _, ts => return .node .expressionList ts

/-- One step into a construct, whose parts `self` parses. -/
def construct : Goal → Parse Tree
  | .expression level ctx => expressionAt self level ctx
  | .operand power ctx => binary self power ctx
  | .unsigned ctx => unsigned self ctx
  | .starred ctx => starred self ctx
  | .source ctx => source self ctx
  | .rightSide => rightSide self
  | .type isConstrainable ctx => type self isConstrainable ctx
  | .casePattern ctx => casePattern self ctx
  | .simplePattern ctx => simplePattern self ctx
  | .interpolation kind => interpolation self kind

/-- A construct that is nested at most `n` deep. -/
def constructWithin : Nat → Goal → Parse Tree
  | 0, _ => fail
  | n + 1, goal => construct (constructWithin n) goal

def anyConstruct (goal : Goal) : Parse Tree := fun s => constructWithin s.fuel goal s

end SymbolAtlas.Python.Grammar
