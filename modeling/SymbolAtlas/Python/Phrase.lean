import SymbolAtlas.Python.Lines.Declarations
import SymbolAtlas.Python.Source

/-! # Phrases

Where a source does not follow the grammar, the grammar no longer tells which tokens to expect, so
here tokens are told apart by their characters alone. Tokens that certainly belong together, such
as a call with its arguments, are one `Phrase`.
-/

namespace SymbolAtlas.Python

/-- The place of a token, or of several tokens that belong together, in a source. -/
structure Phrase where
  start : Cursor
  /-- Where the last token begins. -/
  final : Cursor
  stop : Cursor

/-! ## Tokens -/

/-- The length of a string's body and closing mark, when `n` characters of it are behind; none if
the string does not end. -/
def quotedLength? (o : Opening) (n : Nat) : List Char → Option Nat
  | [] => none
  | '\\' :: _ :: cs => quotedLength? o (n + 2) cs
  | c :: cs =>
    if c = o.quote && !o.isTriple then some (n + 1)
    else if c = o.quote && cs.take 2 == [c, c] then some (n + 3)
    else if c = '\n' && !o.isTriple then none
    else quotedLength? o (n + 1) cs

/-- The marks that neither join nor compare operands and take more than one character. -/
def longMarks : List String := [":=", "->", "..."]

/-- The length of the mark at the head of a text; zero if no mark of several characters is there. -/
def markLength (cs : List Char) : Nat :=
  let listed := longMarks.find? fun mark => mark.toList.isPrefixOf cs
  let operator := (binaryOperator? cs).map (·.1)
  ((augmentation? cs).or (operator.or ((comparison? cs).or listed))).elim 0 (·.length)

/-- The length of the token at the head of a text that does not begin with a blank. A string is one
token if it ends; otherwise its opening mark is. An exclamation mark and a small letter, as in an
interpolation, are one token. -/
def tokenLength (cs : List Char) : Nat :=
  match Opening.read cs with
  | some (opening, length) => (quotedLength? opening length (cs.drop length)).getD length
  | none =>
    let word := (wordOf cs).length
    let number := max (Number.integerLength cs) (Number.floatLength cs)
    let conversion := match cs with
      | '!' :: c :: _ => if 'a' ≤ c && c ≤ 'z' then 2 else 0
      | _ => 0
    max 1 (max word (max number (max conversion (markLength cs))))

/-- The length of the token at a place, as seen from the offset `limit`. If that lies within
interpolated text, the token ends with the last opening brace before it. -/
def tokenLengthFrom (limit : Nat) (start : Cursor) : Nat :=
  let length := tokenLength start.rest
  let isFormat := (Opening.read start.rest).any fun (opening, _) => opening.isFormat
  let shown := (start.rest.take (limit - start.offset)).reverse.dropWhile (· != '{')
  if isFormat && start.offset < limit && limit < start.offset + length && !shown.isEmpty then
    shown.length
  else length

/-- The tokens from a state on, up to the first `more` that do not begin before the offset `limit`;
at most `n` of them. -/
def tokensUpTo (limit : Nat) : Nat → Nat → State → List Phrase
  | 0, _, _ => []
  | n + 1, more, s =>
    let s := s.look { closer := true } s.fuel
    let stop := s.start.advance (tokenLengthFrom limit s.start)
    let token : Phrase := ⟨s.start, s.start, stop⟩
    if s.ahead = .finish then []
    else if s.start.offset < limit then token :: tokensUpTo limit n more { s with stop := stop }
    else
      match more with
      | 0 => []
      | more + 1 => token :: tokensUpTo limit n more { s with stop := stop }

namespace Phrase

def join (p q : Phrase) : Phrase := ⟨p.start, q.final, q.stop⟩

def chars (p : Phrase) : List Char := p.start.slice p.stop

def finalChars (p : Phrase) : List Char := p.final.slice p.stop

def isToken (p : Phrase) : Bool := p.start.offset == p.final.offset

def isText (p : Phrase) (text : String) : Bool := p.isToken && p.finalChars == text.toList

def isAnyOf (p : Phrase) (texts : List String) : Bool := texts.any p.isText

/-- How much there is to pass over in a token: a string counts for its marks and its body. -/
def weight (p : Phrase) : Nat :=
  match Opening.read p.chars with
  | some (opening, length) =>
    let closing := if opening.isTriple then 3 else 1
    if p.chars.length = length then 1 else if p.chars.length ≤ length + closing then 2 else 3
  | none => 1

/-! ## Kinds of phrases -/

def isOpening (p : Phrase) : Bool := p.isAnyOf ["(", "[", "\x7b"]

def isClosing (p : Phrase) : Bool := p.isAnyOf [")", "]", "\x7d"]

def isClosedBy (p q : Phrase) : Bool :=
  p.isText "(" && q.isText ")" || p.isText "[" && q.isText "]" ||
    p.isText "\x7b" && q.isText "\x7d"

/-- Whether a phrase is an operand: it ends with a name, a literal or a closing bracket. -/
def isOperand (p : Phrase) : Bool :=
  let cs := p.finalChars
  !Lines.isKeyword (String.ofList cs) &&
    cs.getLast?.any fun c => isWordPart c || Margin.isQuote c || [')', ']', '}'].contains c

/-- Whether a phrase is a name, or something that is reached through a dot or a subscript. -/
def isPlace (p : Phrase) : Bool :=
  p.isOperand && match p.finalChars with
    | [']'] => !(p.start.rest.head? == some '[')
    | c :: _ => isWordStart c
    | [] => false

def isComparison (p : Phrase) : Bool := (comparison? p.chars).isSome

def isOperator (p : Phrase) : Bool := (binaryOperator? p.chars).isSome || p.isComparison

def isSign (p : Phrase) : Bool := p.isAnyOf ["=", ":="] || (augmentation? p.chars).isSome

/-- Whether a token makes the name after it part of a larger operand. -/
def bindsTightly (p : Phrase) : Bool :=
  p.isAnyOf ["in", "is", "await", "exec"] || !p.isText "=" && p.isOperator

def isJoining (p : Phrase) : Bool :=
  p.isAnyOf [".", ",", "in", "is", "if", "and", "or", "not", "as"] || p.isOperator

/-- Whether a token is neither a word, a number nor a string, and ends no part of a list. -/
def isMark (p : Phrase) : Bool :=
  !p.isAnyOf [",", ";"] && !(p.chars.head?.any fun c =>
    isWordStart c || Identifier.isAsciiDigit c || Margin.isQuote c)

def isOperation (p : Phrase) : Bool :=
  p.isOperand && !p.isText "print" || p.bindsTightly ||
    p.isAnyOf ["and", "or", "not", "if", "else", "~"]

/-! ## Joining tokens -/

/-- Phrases, the last first, continued with a token. A closing bracket makes one phrase of all since
the opening one, and of the operand that the brackets are attached to. So does a name after a
dot. -/
def continued (phrases : List Phrase) (p : Phrase) : List Phrase :=
  if p.isClosing then
    match phrases.dropWhile (!·.isOpening) with
    | opening :: before =>
      if opening.isClosedBy p then
        match before with
        | base :: earlier =>
          if base.isOperand && !p.isText "\x7d" then base.join p :: earlier
          else opening.join p :: before
        | [] => [opening.join p]
      else p :: phrases
    | [] => p :: phrases
  else
    match phrases with
    | dot :: base :: before =>
      if dot.isText "." && base.isOperand && p.finalChars.head?.any isWordStart then
        base.join p :: before
      else p :: phrases
    | _ => p :: phrases

def ofTokens (tokens : List Phrase) : List Phrase := tokens.foldl continued []

end Phrase

end SymbolAtlas.Python
