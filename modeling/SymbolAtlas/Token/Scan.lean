import SymbolAtlas.Token.Lexeme

/-! # Scanning

A text of C-family source becomes the list of its tokens; white space and comments are dropped.
Inside a template literal each interpolation is scanned as code of its own, up to the brace that
balances its opening one.
-/

namespace SymbolAtlas

namespace Token

/-- Whether a slash after this token may open a regular expression: not after a value that can be
divided. -/
def mayPrecedeRegex (t : Token) : Bool :=
  !(t.hasKind .identifier || t.hasKind .numeric || t.text == ")" || t.text == "]")

end Token

/-- Where code stands: outside every template literal, or inside an interpolation in which some
braces are open. -/
inductive Nesting where
  | outside
  | inside (braces : Nat)
  deriving DecidableEq, Repr

/-- How a character at the head of a lexeme changes the nesting; `none` when it closes the
interpolation. -/
def Nesting.after : Nesting → Char → Option Nesting
  | .outside, _ => some .outside
  | .inside n, '{' => some (.inside (n + 1))
  | .inside 0, '}' => none
  | .inside (n + 1), '}' => some (.inside n)
  | .inside n, _ => some (.inside n)

namespace Scan

def tokenBetween (kind : Token.Kind) (start stop : Cursor) : Token :=
  .plain kind start.position (String.ofList (start.slice stop))

mutual

/-- The tokens of code up to the end of the text or of the interpolation, and where it ends. The
first argument bounds the number of steps. -/
def code : Nat → Nesting → Option Token → Cursor → List Token × Cursor
  | 0, _, _, c => ([], c)
  | steps + 1, nesting, previous, c =>
    match c.rest with
    | [] => ([], c)
    | ch :: cs =>
      match Lexeme.head (previous.all Token.mayPrecedeRegex) ch cs with
      | .gap n => code steps nesting previous (c.advance n)
      | .backquote =>
        let (groups, stop) := template steps (c.advance 1)
        let t := Token.template c.position (String.ofList (c.slice stop)) groups.flatten
        let (ts, last) := code steps nesting (some t) stop
        (t :: ts, last)
      | .token kind n =>
        match nesting.after ch with
        | none => ([], c.advance n)
        | some nesting =>
          let stop := c.advance n
          let t := tokenBetween kind c stop
          let (ts, last) := code steps nesting (some t) stop
          (t :: ts, last)

/-- The tokens of each interpolation of a template literal, read from after its opening
backquote, and where the literal ends. -/
def template : Nat → Cursor → List (List Token) × Cursor
  | 0, c => ([], c)
  | steps + 1, c =>
    match c.rest with
    | [] => ([], c)
    | '\\' :: _ => template steps (c.advance 2)
    | '\x60' :: _ => ([], c.advance 1)
    | '$' :: '{' :: _ =>
      let (group, stop) := code steps (.inside 0) none (c.advance 2)
      let (groups, last) := template steps stop
      (group :: groups, last)
    | _ :: _ => template steps (c.advance 1)

end

/-- Where the code of a source begins: after an interpreter line, if there is one. -/
def codeStart (source : List Char) : Cursor :=
  let c := Cursor.ofList source
  if ['#', '!'].isPrefixOf source then c.advance (Lexeme.lineLength source) else c

end Scan

def tokenize (source : String) : List Token :=
  let c := Scan.codeStart source.toList
  (Scan.code (c.rest.length + 1) .outside none c).1

end SymbolAtlas
