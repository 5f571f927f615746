import SymbolAtlas.Script.Bracket

/-! # Function signatures

A signature is rebuilt from the parameter list: names, question marks and rest dots are kept, and
annotations and return types where they are a single word. Destructured parameters show as empty
braces or brackets.
-/

namespace SymbolAtlas.Script

/-- The type after a colon when it is one word followed by the end of the tokens, by `=` or by one
of `terminators`. -/
def typeWord (terminators : List String) : List Token → Option String
  | colon :: type :: rest =>
    let ends :=
      match rest with
      | [] => true
      | t :: _ => t.isOperator "=" || (t.hasKind .punctuation && terminators.contains t.text)
    if colon.isMark ":" && type.isWord && ends then some type.text else none
  | _ => none

/-- Words that may stand before a constructor's parameter to make it a property. -/
def propertyModifiers : List String := ["public", "private", "protected", "readonly"]

/-- A parameter without its property modifiers. A modifier that nothing follows is its name. -/
def withoutModifiers : List Token → List Token
  | t :: next :: rest =>
    if t.isWord && propertyModifiers.contains t.text &&
        (next.isWord || next.isMark "\x7b" || next.isMark "[") then
      withoutModifiers (next :: rest)
    else t :: next :: rest
  | ts => ts

/-- A parameter as the signature shows it; empty when it has no name. -/
def parameterText (segment : List Token) : String :=
  let (dots, rest) :=
    match withoutModifiers segment with
    | t :: rest => if t.isMark "..." then ("...", rest) else ("", t :: rest)
    | [] => ("", [])
  match rest with
  | [] => ""
  | head :: rest =>
    if head.isMark "\x7b" then dots ++ "\x7b\x7d"
    else if head.isMark "[" then dots ++ "[]"
    else if head.isWord then
      let (name, rest) :=
        match rest with
        | t :: more =>
          if t.isOperator "?" then (dots ++ head.text ++ "?", more) else (dots ++ head.text, rest)
        | [] => (dots ++ head.text, rest)
      match typeWord [] rest with
      | some type => name ++ ": " ++ type
      | none => name
    else ""

/-- The tokens between the commas of a parameter list, outside its brackets and angle brackets. A
last piece without tokens is left out. -/
def parameterSegments (depth angles : Nat) (segment : List Token) : List Token → List (List Token)
  | [] => if segment.isEmpty then [] else [segment.reverse]
  | t :: ts =>
    let depth := if t.isOpener then depth + 1 else if t.isCloser then depth - 1 else depth
    let angles := angleDepth angles t
    if depth = 0 && angles = 0 && t.isMark "," then
      segment.reverse :: parameterSegments depth angles [] ts
    else parameterSegments depth angles (t :: segment) ts

def signatureTail (ts : List Token) : String :=
  let ts :=
    match ts with
    | t :: _ => if t.isOperator "<" then afterAngles 0 ts else ts
    | [] => []
  match ts with
  | opener :: rest =>
    if opener.isMark "(" then
      let (inner, after) :=
        match untilClosed 0 rest with
        | some split => split
        | none => (rest.dropLast, [])
      let parameters := ((parameterSegments 0 0 [] inner).map parameterText).filter (· != "")
      let list := "(" ++ ", ".intercalate parameters ++ ")"
      match typeWord ["\x7b", ";"] after with
      | some type => list ++ ": " ++ type
      | none => list
    else ""
  | [] => ""

end SymbolAtlas.Script
