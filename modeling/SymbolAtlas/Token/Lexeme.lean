import SymbolAtlas.Token
import SymbolAtlas.Token.Vocabulary
import SymbolAtlas.Text.Identifier

/-! # Lexemes

What stands at the head of a text of C-family source, and how many characters it takes. Nothing
here fails: a string, comment or template literal that is not closed runs to the end of the text,
and a slash that opens no regular expression is an operator.
-/

namespace SymbolAtlas

open Identifier

inductive Lexeme where
  /-- White space, a comment or a stray character: `length` characters that make no token. -/
  | gap (length : Nat)
  /-- A token of `length` characters. -/
  | token (kind : Token.Kind) (length : Nat)
  /-- The backquote that opens a template literal. -/
  | backquote
  deriving DecidableEq, Repr

namespace Lexeme

def isGap (c : Char) : Bool :=
  c == ' ' || c == '\t' || c == '\r' || c == '\n' || c == '\x0c' || c == '\x0b' ||
    c == '\u00a0' || c == '\ufeff'

/-- A character that may begin a name. Characters outside the basic plane never do. -/
def isNameStart (c : Char) : Bool :=
  utf16Width c == 1 && (isIdStart c || c == '$' || c == '_')

def isNamePart (c : Char) : Bool :=
  utf16Width c == 1 && (isIdContinue c || c == '$' || c == '\u200c' || c == '\u200d')

def isNumberPart (c : Char) : Bool := isAsciiWord c || c == '.'

def marks : List Char := ['{', '}', '[', ']', '(', ')', ',', ';', ':', '.', '@', '#']

/-- The operators other than those that begin with a slash, longer ones before their prefixes. -/
def operators : List String :=
  [">>>=", "===", "!==", "**=", "<<=", ">>=", ">>>", "&&=", "||=", "??=", "=>", "==", "!=", "<=",
    ">=", "&&", "||", "??", "++", "--", "+=", "-=", "*=", "%=", "&=", "|=", "^=", "**", "<<",
    ">>", "+", "-", "*", "%", "=", "!", "<", ">", "&", "|", "^", "~", "?"]

def lineLength (cs : List Char) : Nat := (cs.takeWhile (· != '\n')).length

/-- The length of the text up to and with the mark that closes a block comment. -/
def throughCommentEnd : List Char → Nat
  | [] => 0
  | '*' :: '/' :: _ => 2
  | _ :: cs => 1 + throughCommentEnd cs

/-- The length of the text up to and with the next quote that no backslash precedes. -/
def throughQuote (quote : Char) : List Char → Nat
  | [] => 0
  | ['\\'] => 1
  | '\\' :: _ :: cs => 2 + throughQuote quote cs
  | c :: cs => if c = quote then 1 else 1 + throughQuote quote cs

/-- The length of a regular expression's body and closing slash. There is none when a line feed
comes first. A slash inside a character class or after a backslash does not close. -/
def throughSlash (inClass : Bool) : List Char → Option Nat
  | [] => none
  | ['\\'] => none
  | '\\' :: _ :: cs => (throughSlash inClass cs).map (2 + ·)
  | c :: cs =>
    if c = '\n' then none
    else if c = '/' && !inClass then some 1
    else
      let inClass := if c = '[' then true else if c = ']' then false else inClass
      (throughSlash inClass cs).map (1 + ·)

/-- The length of the regular expression that follows an opening slash, flags included. -/
def regexTail? (cs : List Char) : Option Nat :=
  (throughSlash false cs).map fun n => n + ((cs.drop n).takeWhile isAsciiLetter).length

/-- The length of the rest of a number after the character `previous`. A sign continues it after
an exponent mark, unless the number has a base prefix. -/
def numberTail (hasBase : Bool) (previous : Char) : List Char → Nat
  | [] => 0
  | c :: cs =>
    let isExponentSign :=
      !hasBase && (c == '+' || c == '-') && (previous == 'e' || previous == 'E')
    if isNumberPart c || isExponentSign then 1 + numberTail hasBase c cs else 0

def hasBasePrefix : List Char → Bool
  | '0' :: c :: _ => ['x', 'X', 'o', 'O', 'b', 'B'].contains c
  | _ => false

/-- The length of the bracket or separator at the head of a text. An optional-chaining mark is
none before a digit. -/
def markLength? : List Char → Option Nat
  | '.' :: '.' :: '.' :: _ => some 3
  | '?' :: '.' :: cs => if cs.head?.any isAsciiDigit then none else some 2
  | c :: _ => if marks.contains c then some 1 else none
  | [] => none

def operatorLength? (cs : List Char) : Option Nat :=
  (operators.find? fun op => op.toList.isPrefixOf cs).map String.length

def nameKind (name : List Char) : Token.Kind :=
  if Vocabulary.isReserved (String.ofList name) then .keyword else .identifier

def admitsRegex : List Char → Bool
  | [] => false
  | c :: _ => !(['=', ' ', '\n', '\t', '\r'].contains c)

/-- What a slash begins, given the text after it and whether a value precedes it. -/
def afterSlash (regexMayStart : Bool) (cs : List Char) : Lexeme :=
  match cs with
  | '/' :: _ => gap (1 + lineLength cs)
  | '*' :: rest => gap (2 + throughCommentEnd rest)
  | _ =>
    match if regexMayStart && admitsRegex cs then regexTail? cs else none with
    | some n => token .regex (1 + n)
    | none => token .operator (if cs.head? == some '=' then 2 else 1)

def head (regexMayStart : Bool) (c : Char) (cs : List Char) : Lexeme :=
  if isGap c then gap 1
  else if c = '/' then afterSlash regexMayStart cs
  else if c = '"' || c = '\'' then token .string (1 + throughQuote c cs)
  else if c = '\x60' then backquote
  else if isNameStart c || (c == '#' && cs.head?.any isNameStart) then
    let tail := cs.takeWhile isNamePart
    token (nameKind (c :: tail)) (1 + tail.length)
  else if isAsciiDigit c || (c == '.' && cs.head?.any isAsciiDigit) then
    token .numeric (1 + numberTail (hasBasePrefix (c :: cs)) c cs)
  else
    match markLength? (c :: cs) with
    | some n => token .punctuation n
    | none =>
      match operatorLength? (c :: cs) with
      | some n => token .operator n
      | none => gap 1

end Lexeme

end SymbolAtlas
