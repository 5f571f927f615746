import SymbolAtlas.Declaration
import SymbolAtlas.Token.Vocabulary
import SymbolAtlas.Script.Pattern
import SymbolAtlas.Script.Signature

/-! # Top-level declarations of a token list

Only words outside every bracket pair introduce declarations, so members, locals and parameters
are not declared. The tokens before a word are given nearest first.
-/

namespace SymbolAtlas.Script

def declarationModifiers : List String :=
  ["export", "default", "declare", "async", "abstract", "const"]

/-- Words after which `function` or `class` begins an expression. -/
def expressionOpeners : List String :=
  ["return", "yield", "await", "new", "typeof", "void", "delete", "throw", "in", "instanceof",
    "case", "extends"]

/-- A name that a declaration may bind: not reserved and not built in. -/
def isDeclarable (t : Token) : Bool :=
  t.hasKind .identifier && !Vocabulary.isBuiltin t.text

def isModifier (t : Token) : Bool := t.isWord && declarationModifiers.contains t.text

def isExportedAfter (before : List Token) : Bool :=
  (before.takeWhile isModifier).any (·.text == "export")

/-- Whether the declaring word `t`, its modifiers included, begins a statement rather than an
expression. -/
def startsStatement (before : List Token) (t : Token) : Bool :=
  let first := (before.takeWhile isModifier).getLastD t
  match before.dropWhile isModifier with
  | [] => true
  | previous :: _ =>
    if previous.isMark ";" || previous.isMark "\x7d" || previous.isMark "\x7b" then true
    else if previous.line == first.line then false
    else
      !(previous.hasKind .operator || expectsMore previous ||
        (previous.hasKind .keyword && expressionOpeners.contains previous.text))

def declarationOf (form : Declaration.Form) (t : Token) (descriptor : String)
    (isExported : Bool) : Declaration :=
  ⟨form, t.text, t.position, descriptor, isExported⟩

def functionDeclaration (isAsync isExported : Bool) (rest : List Token) : List Declaration :=
  let (star, rest) :=
    match rest with
    | t :: more => if t.isOperator "*" then ("*", more) else ("", rest)
    | [] => ("", [])
  match rest with
  | name :: rest =>
    if isDeclarable name then
      let head := (if isAsync then "async " else "") ++ "function" ++ star
      let signature := head ++ " " ++ name.text ++ signatureTail rest
      [declarationOf (.function signature) name head isExported]
    else []
  | [] => []

def namedDeclaration (form : Declaration.Form) (descriptor : String) (isExported : Bool)
    (rest : List Token) : List Declaration :=
  ((rest.head?.filter isDeclarable).map fun name =>
    declarationOf form name descriptor isExported).toList

/-- Whether the tokens after an alias's name give it a meaning. -/
def definesAlias (ts : List Token) : Bool :=
  let ts :=
    match ts with
    | t :: _ => if t.isOperator "<" then afterAngles 0 ts else ts
    | [] => []
  ts.head?.any (·.isOperator "=")

/-- The declarations that the word `t` introduces, given the tokens before and after it. -/
def declarationsAt (before : List Token) (t : Token) (rest : List Token) : List Declaration :=
  let isExported := isExportedAfter before
  let follows := fun word => before.head?.any (·.isWordOf word)
  match t.text with
  | "const" | "let" | "var" =>
    if rest.head?.any (·.isWordOf "enum") then []
    else
      ((variableNames rest).filter isDeclarable).map fun name =>
        declarationOf .value name t.text isExported
  | "function" =>
    if startsStatement before t then functionDeclaration (follows "async") isExported rest else []
  | "class" =>
    if startsStatement before t then
      namedDeclaration .classType (if follows "abstract" then "abstract class" else "class")
        isExported rest
    else []
  | "interface" => namedDeclaration .interfaceType "interface" isExported rest
  | "type" =>
    if startsStatement before t && definesAlias rest.tail then
      namedDeclaration .typeAlias "type" isExported rest
    else []
  | "enum" =>
    namedDeclaration .enumeration (if follows "const" then "const enum" else "enum") isExported rest
  | _ => []

/-- The declarations of the tokens after `before`, in order; `depth` brackets are open. -/
def topLevelFrom (before : List Token) (depth : Nat) : List Token → List Declaration
  | [] => []
  | t :: ts =>
    let found := if depth = 0 && t.isWord then declarationsAt before t ts else []
    let depth := if t.isOpener then depth + 1 else if t.isCloser then depth - 1 else depth
    found ++ topLevelFrom (t :: before) depth ts

def declarations (tokens : List Token) : Declarations :=
  Declarations.insertAll [] (topLevelFrom [] 0 tokens)

end SymbolAtlas.Script
