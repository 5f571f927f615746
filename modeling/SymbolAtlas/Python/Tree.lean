import SymbolAtlas.Text.Position

/-! # Syntax trees of Python

A tree keeps everything between its first and last token: a node for each construct, one for each
keyword, mark and name, and one for each comment and each backslash that joins lines, wherever it
stands. A node knows what role it plays in its parent, if that role has a name, and where it begins
and ends; its text is what the source has between these places.
-/

namespace SymbolAtlas.Python

/-- The constructs of the language. A `mark` is a keyword, operator or bracket. -/
inductive Kind where
  | mark | comment | continuation
  -- statements
  | module | block
  | plainImport | fromImport | futureImport | importPrefix | relativeImport | renamedImport
  | wildcardImport | dottedName
  | printStatement | chevron | assertStatement | expressionStatement | returnStatement
  | deleteStatement | raiseStatement | passStatement | breakStatement | continueStatement
  | globalStatement | nonlocalStatement | execStatement | typeAlias
  | ifStatement | elifClause | elseClause | matchStatement | caseClause | forStatement
  | whileStatement | tryStatement | exceptClause | exceptGroupClause | finallyClause
  | withStatement | withClause | withItem
  | functionDefinition | classDefinition | typeParameter | decoratedDefinition | decorator
  -- parameters, arguments and types
  | parameters | lambdaParameters | defaultParameter | typedParameter | typedDefaultParameter
  | keywordSeparator | positionalSeparator | argumentList | keywordArgument
  | type | splatType | genericType | unionType | constrainedType | memberType
  -- targets
  | assignment | augmentedAssignment | patternList | tuplePattern | listPattern
  | listSplatPattern | dictionarySplatPattern
  -- patterns of a `case`
  | casePattern | unionPattern | dictPattern | keywordPattern | splatPattern | classPattern
  | complexPattern
  -- expressions
  | identifier | integer | float | trueValue | falseValue | noneValue | ellipsis
  | string | concatenatedString | stringStart | stringContent | stringEnd | escapeSequence
  | escapedBrace | interpolation | formatSpecifier | formatExpression | typeConversion
  | attribute | subscript | slice | call | await | unaryOperator | binaryOperator
  | comparisonOperator | notOperator | booleanOperator | conditional | lambda | namedExpression
  | asPattern | asPatternTarget | yieldExpression | expressionList | listSplat | dictionarySplat
  | list | set | tuple | dictionary | pair | parenthesized | generator | listComprehension
  | dictionaryComprehension | setComprehension | forInClause | ifClause
  deriving DecidableEq, Repr, Inhabited

/-- The named roles that a node may play in its parent. -/
inductive Field where
  | alternative | argument | arguments | attribute | body | cause | code | condition
  | consequence | definition | expression | formatSpecifier | function | guard | key | left
  | moduleName | name | object | operator | operators | parameters | rename | returnType | right
  | subject | subscript | superclasses | type | typeConversion | typeParameters | value
  deriving DecidableEq, Repr

/-- A node of a syntax tree with its children, in source order. -/
structure Tree where
  kind : Kind
  field : Option Field
  start : Cursor
  stop : Cursor
  children : List Tree

namespace Tree

instance : Inhabited Tree := ⟨⟨.mark, none, .ofList [], .ofList [], []⟩⟩

/-- A node that ends where its children do. -/
def node (kind : Kind) (children : List Tree) : Tree :=
  let start := (children.head?.map Tree.start).getD (.ofList [])
  let stop := (children.getLast?.map Tree.stop).getD start
  ⟨kind, none, start, stop, children⟩

def leaf (kind : Kind) (start stop : Cursor) : Tree := ⟨kind, none, start, stop, []⟩

def inField (field : Field) (t : Tree) : Tree := { t with field := some field }

def withKind (kind : Kind) (t : Tree) : Tree := { t with kind := kind }

def chars (t : Tree) : List Char := t.start.slice t.stop

def text (t : Tree) : String := String.ofList t.chars

def position (t : Tree) : Position := t.start.position

def isNamed (t : Tree) : Bool := t.kind != .mark

/-- Whether the node is a comment or a joining backslash, which may stand between any two
tokens. -/
def isExtra (t : Tree) : Bool := t.kind == .comment || t.kind == .continuation

def namedChildren (t : Tree) : List Tree := t.children.filter isNamed

def child? (t : Tree) (field : Field) : Option Tree :=
  t.children.find? (·.field == some field)

def firstNamed? (t : Tree) : Option Tree := t.children.find? isNamed

end Tree

mutual

/-- The nodes of a tree, each before its children. -/
def Tree.nodes : Tree → List Tree
  | ⟨kind, field, start, stop, children⟩ =>
    ⟨kind, field, start, stop, children⟩ :: nodesOf children

def nodesOf : List Tree → List Tree
  | [] => []
  | t :: ts => t.nodes ++ nodesOf ts

end

end SymbolAtlas.Python
