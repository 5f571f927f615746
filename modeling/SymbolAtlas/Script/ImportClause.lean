import SymbolAtlas.Import
import SymbolAtlas.Token

/-! # Import statements and calls in a token list

Every `import` keyword and every `require` name is tried, wherever it stands. A clause whose
module name does not follow in the same statement gives no import.
-/

namespace SymbolAtlas.Script

/-- The text of a string token without its quotes, or of a template literal without its
backquotes. A missing closing quote is tolerated. -/
def unquote (text : String) : String :=
  match text.toList with
  | [] => text
  | quote :: body =>
    if quote != '"' && quote != '\'' && quote != '\x60' then text
    else if body.getLast? == some quote then String.ofList body.dropLast
    else String.ofList body

def headIs (test : Token → Bool) (ts : List Token) : Bool := ts.head?.any test

/-- The module name after the next `from`, unless the statement ends or another import begins
before. -/
def sourceAfter : List Token → Option String
  | [] => none
  | t :: ts =>
    if t.isMark ";" || t.isWordOf "import" then none
    else if t.isWordOf "from" then
      match ts with
      | s :: _ => if s.hasKind .string then some (unquote s.text) else none
      | [] => none
    else sourceAfter ts

/-- The binding of `* as ns`, read from after the star, and the tokens after it. -/
def namespaceBinding : List Token → Option (Binding × List Token)
  | a :: name :: rest =>
    if a.isWordOf "as" && name.hasKind .identifier then some (⟨"*", some name.text⟩, rest) else none
  | _ => none

/-- Whether `type` modifies the list entry that follows it, rather than being the entry. -/
def isEntryModifier (t : Token) (rest : List Token) : Bool :=
  t.isWordOf "type" &&
    headIs (fun n => !(n.isMark "," || n.isMark "\x7d" || n.isWordOf "as")) rest

def namedEntry (t : Token) (rest : List Token) : Option Binding × List Token :=
  let (name, rest) :=
    match rest with
    | next :: after => if isEntryModifier t rest then (next, after) else (t, rest)
    | [] => (t, rest)
  if name.isWord || name.hasKind .string then
    match rest with
    | a :: rename :: after =>
      if a.isWordOf "as" && rename.isWord then
        (some ⟨unquote name.text, some rename.text⟩, after)
      else (some ⟨unquote name.text, none⟩, rest)
    | _ => (some ⟨unquote name.text, none⟩, rest)
  else (none, rest)

theorem namedEntry_length_le (t : Token) (rest : List Token) :
    (namedEntry t rest).2.length ≤ rest.length := by
  unfold namedEntry
  grind

/-- The bindings of a named list, read from after its opening brace, and the tokens after it. A
list that is not closed ends before `from 'm'`, a semicolon or another import. -/
def namedList : List Token → List Binding × List Token
  | [] => ([], [])
  | t :: ts =>
    if t.isMark "\x7d" then ([], ts)
    else if t.isMark ";" || t.isWordOf "import" then ([], t :: ts)
    else if t.isWordOf "from" && headIs (·.hasKind .string) ts then ([], t :: ts)
    else if t.isMark "," then namedList ts
    else
      let (names, rest) := namedList (namedEntry t ts).2
      ((namedEntry t ts).1.toList ++ names, rest)
termination_by ts => ts.length
decreasing_by
  · simp
  · have := namedEntry_length_le t ts
    simp only [List.length_cons]
    omega

/-- The tokens of a static import without a `type` modifier in front of its clause. A default
binding named `type` is kept. -/
def withoutTypeModifier (ts : List Token) : List Token :=
  match ts with
  | t :: rest =>
    let bindsType := headIs (·.isWordOf "from") rest && headIs (·.hasKind .string) rest.tail
    let opensClause :=
      headIs (fun n => n.hasKind .identifier || n.isMark "\x7b" || n.isOperator "*") rest
    if t.isWordOf "type" && !bindsType && opensClause then rest else ts
  | [] => []

def afterDefault (default : Binding) (rest : List Token) : ImportClause × List Token :=
  let alone := (ImportClause.defaultName [default], rest)
  match rest with
  | comma :: opener :: after =>
    if comma.isMark "," && opener.isMark "\x7b" then
      let (names, rest) := namedList after
      (.named (default :: names), rest)
    else if comma.isMark "," && opener.isOperator "*" then
      match namespaceBinding after with
      | some (b, rest) => (.named [default, b], rest)
      | none => alone
    else alone
  | _ => alone

def bindingClause : List Token → Option (ImportClause × List Token)
  | [] => none
  | t :: rest =>
    if t.isOperator "*" then
      (namespaceBinding rest).map fun (b, rest) => (.wholeModule [b], rest)
    else if t.isMark "\x7b" then
      let (names, rest) := namedList rest
      some (.named names, rest)
    else if t.hasKind .identifier then
      if headIs (·.isOperator "=") rest then none else some (afterDefault ⟨t.text, none⟩ rest)
    else none

/-- The import that the tokens after an `import` keyword make, but for its position. -/
def importAfter (ts : List Token) : Option (ImportClause × String) :=
  match ts with
  | [] => none
  | first :: rest =>
    if first.isMark "(" then
      match rest with
      | .plain .string _ text :: _ => some (.dynamicCall, unquote text)
      | .template _ text [] :: _ => some (.dynamicCall, unquote text)
      | _ => none
    else if first.isMark "." then none
    else
      match withoutTypeModifier ts with
      | .plain .string _ text :: _ => some (.sideEffect, unquote text)
      | ts =>
        (bindingClause ts).bind fun (clause, rest) =>
          (sourceAfter rest).map fun source => (clause, source)

/-- The argument of a `require` call with a literal, read from after the name. -/
def requiredAfter : List Token → Option String
  | opener :: argument :: _ =>
    if opener.isMark "(" && argument.hasKind .string then some (unquote argument.text) else none
  | _ => none

def importAt (t : Token) (rest : List Token) : Option Import :=
  if t.is .keyword "import" then
    (importAfter rest).map fun (clause, source) => ⟨clause, source, t.position⟩
  else if t.is .identifier "require" then
    (requiredAfter rest).map fun source => ⟨.requireCall, source, t.position⟩
  else none

def tokenImports : List Token → List Import
  | [] => []
  | t :: ts => (importAt t ts).toList ++ tokenImports ts

end SymbolAtlas.Script
