import SymbolAtlas.Script.Bracket

/-! # Binding patterns and declarators

The names that a `const`, `let` or `var` statement binds: plain names and the targets of object
and array patterns, however nested. Property keys, defaults, annotations and initialisers are
stepped over.
-/

namespace SymbolAtlas.Script

/-- Step over a default value, up to the comma after it or the bracket that ends its pattern. -/
def afterDefaultValue (closer : String) (ts : List Token) : List Token :=
  match ts with
  | t :: rest => if t.isOperator "=" then fromStop [",", closer] 0 rest else ts
  | [] => []

/-- The tokens after the key of an object pattern's entry: a name, a literal or a computed key. -/
def afterKey (ts : List Token) : List Token :=
  match ts with
  | t :: rest => if t.isMark "[" then afterClosed rest else rest
  | [] => []

mutual

/-- The names that a target binds, and the tokens after it, if a target stands here. The first
argument bounds the number of steps. -/
def target? : Nat → List Token → Option (List Token × List Token)
  | 0, _ => none
  | _ + 1, [] => none
  | steps + 1, t :: ts =>
    if t.isMark "\x7b" then some (entries steps "\x7d" ts)
    else if t.isMark "[" then some (entries steps "]" ts)
    else if t.hasKind .identifier then some ([t], ts)
    else none

/-- The names that the entries of a pattern bind, read from after its opening bracket, and the
tokens after the closing one. -/
def entries : Nat → String → List Token → List Token × List Token
  | 0, _, ts => ([], ts)
  | _ + 1, _, [] => ([], [])
  | steps + 1, closer, t :: ts =>
    if t.isMark closer then ([], ts)
    else if t.isMark "," then entries steps closer ts
    else
      let (names, rest) :=
        if t.isMark "..." then (target? steps ts).getD ([], ts)
        else if closer == "\x7d" then
          let own := if t.hasKind .identifier then [t] else []
          match afterKey (t :: ts) with
          | colon :: rest =>
            if colon.isMark ":" then (target? steps rest).getD ([], rest) else (own, colon :: rest)
          | [] => (own, [])
        else (target? steps (t :: ts)).getD ([], ts)
      let (more, last) := entries steps closer (afterDefaultValue closer rest)
      (names ++ more, last)

end

/-- The tokens from the `=`, comma or semicolon that ends a type annotation, or from a bracket
that closes an outer one. -/
def afterVariableType (depth angles : Nat) : List Token → List Token
  | [] => []
  | t :: ts =>
    if depth = 0 && t.isCloser then t :: ts
    else
      let depth := if t.isOpener then depth + 1 else if t.isCloser then depth - 1 else depth
      let angles := angleDepth angles t
      if depth = 0 && angles = 0 && (t.isOperator "=" || t.isMark "," || t.isMark ";") then t :: ts
      else afterVariableType depth angles ts

/-- Punctuation after which an expression goes on, also on a new line. -/
def expectsMore (t : Token) : Bool :=
  t.hasKind .punctuation && ["(", "[", ",", ":", ".", "?.", "..."].contains t.text

def breaksBetween (before after : Token) : Bool :=
  !(before.hasKind .operator || after.hasKind .operator || expectsMore before ||
    after.isMark "." || after.isMark "?.")

/-- Whether `<` is written flush against the name before it, as in `Map<K, V>`. -/
def opensTypeArguments (before : Option Token) (t : Token) : Bool :=
  t.isOperator "<" &&
    before.any fun p =>
      p.hasKind .identifier && p.line == t.line &&
        p.column + utf16Length p.text.toList == t.column

/-- The tokens from where an initialiser ends: a comma or semicolon outside its brackets, a line
break that ends the statement, or a bracket that closes an outer one. -/
def afterInitializer (before : Option Token) (depth angles : Nat) : List Token → List Token
  | [] => []
  | t :: ts =>
    let isOutside := depth = 0 && angles = 0
    if isOutside && before.any (fun p => p.line < t.line && breaksBetween p t) then t :: ts
    else if depth = 0 && t.isCloser then t :: ts
    else
      let depth := if t.isOpener then depth + 1 else if t.isCloser then depth - 1 else depth
      if depth = 0 && angles = 0 && (t.isMark "," || t.isMark ";") then t :: ts
      else
        let angles :=
          if opensTypeArguments before t then angles + 1
          else if angleChange t < 0 then angleDepth angles t
          else angles
        afterInitializer (some t) depth angles ts

/-- The tokens after what may stand between a declarator's target and the next comma. -/
def afterDeclarator (ts : List Token) : List Token :=
  let ts :=
    match ts with
    | t :: rest => if t.isOperator "!" then rest else ts
    | [] => []
  let ts :=
    match ts with
    | t :: rest => if t.isMark ":" then afterVariableType 0 0 rest else ts
    | [] => []
  match ts with
  | t :: rest => if t.isOperator "=" then afterInitializer none 0 0 rest else ts
  | [] => []

/-- The names that the declarators of a variable statement bind, read from after its keyword. The
first argument bounds the number of declarators. -/
def declaratorNames : Nat → List Token → List Token
  | 0, _ => []
  | steps + 1, ts =>
    match target? (2 * ts.length + 1) ts with
    | none => []
    | some (names, rest) =>
      match afterDeclarator rest with
      | comma :: rest => if comma.isMark "," then names ++ declaratorNames steps rest else names
      | [] => names

def variableNames (ts : List Token) : List Token := declaratorNames (ts.length + 1) ts

end SymbolAtlas.Script
