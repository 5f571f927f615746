import SymbolAtlas.Declaration
import SymbolAtlas.Python.Tree

/-! # Declarations in a syntax tree

A file declares the functions and classes that it defines and the variables that it assigns at
module scope. The blocks of conditionals, loops, `try` and `with` are at module scope, too; those of
functions and classes are not.
-/

namespace SymbolAtlas.Python

/-- Whether what the node holds runs at the scope at which the node stands. -/
def Kind.keepsScope (kind : Kind) : Bool :=
  [.ifStatement, .elifClause, .elseClause, .tryStatement, .exceptClause, .exceptGroupClause,
    .finallyClause, .withStatement, .forStatement, .whileStatement, .block].contains kind

namespace Tree

mutual

/-- The statements at the scope of a node, or the node itself if it keeps none. -/
def statements : Tree → List Tree
  | ⟨kind, field, start, stop, children⟩ =>
    if kind.keepsScope then statementsIn children else [⟨kind, field, start, stop, children⟩]

def statementsIn : List Tree → List Tree
  | [] => []
  | t :: ts => if t.isNamed then t.statements ++ statementsIn ts else statementsIn ts

end

def moduleStatements (t : Tree) : List Tree := statementsIn t.children

/-! ## Signatures -/

/-- The name that a type is, if it is nothing more. -/
def typeName? (t : Tree) : Option String :=
  let inner := if t.kind = .type then t.firstNamed? else some t
  inner.bind fun i => if i.kind = .identifier then some i.text else none

/-- A parameter with its type, if that is a lone name. -/
def annotate (parameter : String) (type : Option Tree) : String :=
  match type.bind typeName? with
  | some name => if parameter = "" then "" else parameter ++ ": " ++ name
  | none => parameter

def firstText (t : Tree) : String := (t.firstNamed?.map text).getD ""

def bareParameter (t : Tree) : String :=
  match t.kind with
  | .identifier => t.text
  | .listSplatPattern => "*" ++ t.firstText
  | .dictionarySplatPattern => "**" ++ t.firstText
  | .keywordSeparator => "*"
  | .positionalSeparator => "/"
  | .defaultParameter => ((t.child? .name).map text).getD ""
  | _ => ""

/-- A parameter as signatures show it. Defaults are left out, and so are types that are more than a
name. -/
def shownParameter (t : Tree) : String :=
  match t.kind with
  | .typedParameter =>
    annotate ((t.firstNamed?.map bareParameter).getD "") (t.child? .type)
  | .typedDefaultParameter => annotate (((t.child? .name).map text).getD "") (t.child? .type)
  | _ => t.bareParameter

def signature (t : Tree) (name : String) (isAsync : Bool) : String :=
  let shown := ((t.child? .parameters).map fun ps => ps.namedChildren.map shownParameter).getD []
  let result :=
    match (t.child? .returnType).bind typeName? with
    | some type => " -> " ++ type
    | none => ""
  (if isAsync then "async " else "") ++ "def " ++ name ++ "(" ++
    String.intercalate ", " (shown.filter (· != "")) ++ ")" ++ result

/-! ## Declarations -/

mutual

def targetNames : Tree → List Tree
  | ⟨kind, field, start, stop, children⟩ =>
    match kind with
    | .identifier => [⟨kind, field, start, stop, children⟩]
    | .patternList | .tuplePattern | .listPattern => targetNamesIn children
    | _ => []

def targetNamesIn : List Tree → List Tree
  | [] => []
  | t :: ts => t.targetNames ++ targetNamesIn ts

end

def declares (t : Tree) (form : Declaration.Form) (descriptor : String) : Declaration :=
  ⟨form, t.text, t.position, descriptor, !isPrivateName t.text⟩

/-- What an assignment declares without the assignments on its right. -/
def assignedHere (t : Tree) : List Declaration :=
  let descriptor := if (t.child? .type).isSome then "annotated variable" else "variable"
  match t.child? .left with
  | some left => left.targetNames.map (·.declares .value descriptor)
  | none => []

mutual

/-- What an assignment declares: its targets, and those of assignments on its right. -/
def assigned : Tree → List Declaration
  | ⟨kind, field, start, stop, children⟩ =>
    if kind = .assignment then
      assignedHere ⟨kind, field, start, stop, children⟩ ++ assignedOnRight children
    else []

def assignedOnRight : List Tree → List Declaration
  | [] => []
  | t :: ts => if t.field = some .right then t.assigned else assignedOnRight ts

end

def defined (t : Tree) : List Declaration :=
  match t.kind, t.child? .name with
  | .functionDefinition, some name =>
    let isAsync := t.children.head?.any fun c => c.kind == .mark && c.text == "async"
    [name.declares (.function (t.signature name.text isAsync))
      (if isAsync then "async function" else "function")]
  | .classDefinition, some name => [name.declares .classType "class"]
  | _, _ => []

def declared (t : Tree) : List Declaration :=
  match t.kind with
  | .decoratedDefinition => ((t.child? .definition).map defined).getD []
  | .expressionStatement => t.children.flatMap assigned
  | _ => t.defined

def declarations (t : Tree) : Declarations := .ofFound (t.moduleStatements.flatMap declared)

end Tree

end SymbolAtlas.Python
