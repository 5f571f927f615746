import SymbolAtlas.Text.Position

/-! # Tokens of C-family source

A token is a slice of the source with the place where it begins. A template literal is one token
that carries the tokens scanned inside its interpolations.
-/

namespace SymbolAtlas

/-- The lexical category of a token other than a template literal. -/
inductive Token.Kind where
  | identifier
  | keyword
  | string
  | numeric
  | operator
  | punctuation
  | regex
  deriving DecidableEq, Repr

/-- A token: its first place, its text, and, for a template literal, the tokens of its
interpolations in source order. -/
inductive Token where
  | plain (kind : Token.Kind) (position : Position) (text : String)
  | template (position : Position) (text : String) (interpolations : List Token)
  deriving Repr

namespace Token

def position : Token → Position
  | plain _ p _ => p
  | template p _ _ => p

def text : Token → String
  | plain _ _ s => s
  | template _ s _ => s

/-- The category, for a token that is no template literal. -/
def kind? : Token → Option Kind
  | plain k _ _ => some k
  | template _ _ _ => none

def line (t : Token) : Int := t.position.line

def column (t : Token) : Int := t.position.column

def hasKind (t : Token) (k : Kind) : Bool := t.kind? == some k

def is (t : Token) (k : Kind) (s : String) : Bool := t.hasKind k && t.text == s

/-- A name, reserved or not. -/
def isWord (t : Token) : Bool := t.hasKind .keyword || t.hasKind .identifier

/-- The word `s`, whether the scanner reserves it or not. -/
def isWordOf (t : Token) (s : String) : Bool := t.isWord && t.text == s

/-- The bracket or separator `s`. -/
def isMark (t : Token) (s : String) : Bool := t.is .punctuation s

def isOperator (t : Token) (s : String) : Bool := t.is .operator s

def isOpener (t : Token) : Bool := t.hasKind .punctuation && ["(", "[", "\x7b"].contains t.text

def isCloser (t : Token) : Bool := t.hasKind .punctuation && [")", "]", "\x7d"].contains t.text

end Token

end SymbolAtlas
