import SymbolAtlas.Python.Layout
import SymbolAtlas.Text.Identifier

/-! # Lexemes of Python

What stands at the head of a text, and how many characters it takes: names, numbers, operators
and the pieces of a string. A word is a name or a keyword; which of them, the grammar decides.
-/

namespace SymbolAtlas.Python

open Identifier

/-- A character between tokens that means nothing, line feeds included. -/
def isFiller (c : Char) : Bool :=
  c == ' ' || ('\t' ≤ c && c ≤ '\r') || c == '\ufeff' || c == '\u2060' || c == '\u200b'

def isWordStart (c : Char) : Bool := c == '_' || isXidStart c

def isWordPart (c : Char) : Bool := c == '_' || isXidContinue c

/-- The word at the head of a text; empty if there is none. -/
def wordOf (cs : List Char) : List Char :=
  if cs.head?.any isWordStart then cs.takeWhile isWordPart else []

def commentLength (cs : List Char) : Nat := (cs.takeWhile (· != '\n')).length

/-- The length of a backslash that joins its line with the next one, or ends the text. -/
def continuationLength? : List Char → Option Nat
  | '\\' :: '\n' :: _ => some 2
  | '\\' :: '\r' :: '\n' :: _ => some 3
  | ['\\'] => some 1
  | _ => none

/-! ## Numbers -/

namespace Number

/-- The length of a run of digits in which an underscore may follow every digit. -/
def runLength (afterDigit : Bool) : List Char → Nat
  | [] => 0
  | c :: cs =>
    if isAsciiDigit c then 1 + runLength true cs
    else if c = '_' && afterDigit then 1 + runLength false cs
    else 0

/-- The length of a run of digits of some base in which an underscore may stand before every
digit. -/
def groupLength (isDigit : Char → Bool) : List Char → Nat
  | [] => 0
  | [c] => if isDigit c then 1 else 0
  | c :: d :: cs =>
    if isDigit c then 1 + groupLength isDigit (d :: cs)
    else if c = '_' && isDigit d then 1 + groupLength isDigit (d :: cs)
    else 0

/-- One if a text begins with one of the given letters, otherwise zero. -/
def suffixLength (letters : List Char) (cs : List Char) : Nat :=
  if cs.head?.any letters.contains then 1 else 0

def exponentLength (cs : List Char) : Nat :=
  match cs with
  | [] => 0
  | c :: cs =>
    if c = 'e' || c = 'E' then
      let sign := suffixLength ['+', '-'] cs
      match runLength false (cs.drop sign) with
      | 0 => 0
      | n + 1 => 1 + sign + n + 1
    else 0

def isHexDigit (c : Char) : Bool :=
  isAsciiDigit c || ('a' ≤ c && c ≤ 'f') || ('A' ≤ c && c ≤ 'F')

/-- The digits of the base that a letter after a leading zero names. -/
def digitsOf (letter : Char) : Option (Char → Bool) :=
  if letter = 'x' || letter = 'X' then some isHexDigit
  else if letter = 'o' || letter = 'O' then some fun c => '0' ≤ c && c ≤ '7'
  else if letter = 'b' || letter = 'B' then some fun c => c == '0' || c == '1'
  else none

def basedLength (cs : List Char) : Nat :=
  match cs with
  | '0' :: letter :: rest =>
    match digitsOf letter with
    | none => 0
    | some isDigit =>
      match groupLength isDigit rest with
      | 0 => 0
      | n + 1 => 2 + n + 1 + suffixLength ['l', 'L'] (rest.drop (n + 1))
  | _ => 0

def integerLength (cs : List Char) : Nat :=
  match runLength false cs with
  | 0 => 0
  | n + 1 => max (basedLength cs) (n + 1 + suffixLength ['l', 'L', 'j', 'J'] (cs.drop (n + 1)))

/-- The length of a number with a point or an exponent; zero if there is none. -/
def floatLength (cs : List Char) : Nat :=
  let whole := runLength false cs
  let afterWhole := cs.drop whole
  let imaginary (n : Nat) : Nat := n + suffixLength ['j', 'J'] (cs.drop n)
  match afterWhole with
  | '.' :: rest =>
    let fraction := runLength false rest
    if whole = 0 && fraction = 0 then 0
    else imaginary (whole + 1 + fraction + exponentLength (rest.drop fraction))
  | _ =>
    match exponentLength afterWhole with
    | 0 => 0
    | n + 1 => if whole = 0 then 0 else imaginary (whole + n + 1)

end Number

/-! ## Operators -/

/-- How tightly the operators between operands bind, from `|` to `**`. -/
def binaryOperators : List (String × Nat) :=
  [("**", 21), ("//", 19), ("<<", 17), (">>", 17), ("*", 19), ("/", 19), ("%", 19), ("@", 19),
    ("+", 18), ("-", 18), ("&", 15), ("^", 16), ("|", 14)]

def comparisons : List String := ["<=", ">=", "==", "!=", "<>", "<", ">"]

def augmentation? (cs : List Char) : Option String :=
  binaryOperators.findSome? fun (operator, _) =>
    if (operator.toList ++ ['=']).isPrefixOf cs then some (operator ++ "=") else none

def binaryOperator? (cs : List Char) : Option (String × Nat) :=
  if (augmentation? cs).isSome then none
  else binaryOperators.find? fun (operator, _) => operator.toList.isPrefixOf cs

def comparison? (cs : List Char) : Option String :=
  if (binaryOperator? cs).isSome || (augmentation? cs).isSome then none
  else comparisons.find? fun mark => mark.toList.isPrefixOf cs

/-! ## Strings -/

inductive Piece where
  | text (length : Nat)
  /-- The mark that closes the string, with raw text before it that only backslashes hide. -/
  | close (length : Nat)
  /-- A backslash and what it stands for. -/
  | escape (length : Nat)
  /-- A backslash that stands for itself. -/
  | backslash
  /-- A brace written twice. -/
  | brace
  /-- Nothing that belongs to the string itself. -/
  | other
  deriving DecidableEq, Repr

namespace Piece

def startsWithRun (isMember : Char → Bool) (n : Nat) (cs : List Char) : Bool :=
  (cs.take n).length == n && (cs.take n).all isMember

def escapeLength : List Char → Nat
  | '\\' :: c :: cs =>
    if c = 'u' && startsWithRun Number.isHexDigit 4 cs then 6
    else if c = 'U' && startsWithRun Number.isHexDigit 8 cs then 10
    else if c = 'x' && startsWithRun Number.isHexDigit 2 cs then 4
    else if startsWithRun isAsciiDigit 3 (c :: cs) then 4
    else if c = '\n' then 2
    else if c = '\r' && cs.head? == some '\n' then 3
    else if ['\'', '"', 'a', 'b', 'f', 'r', 'n', 't', 'v', '\\'].contains c then 2
    else if c = 'N' && cs.head? == some '{' then
      let label := cs.tail.takeWhile (· != '}')
      if label.isEmpty || label.length + 1 = cs.length then 0 else label.length + 4
    else 0
  | _ => 0

def textOf (hasText : Bool) (length : Nat) : Option Piece :=
  if hasText then some (.text length) else none

/-- The plain text or closing mark at the head of a string's body; none if something else comes
first. `length` characters are behind, of which some are plain text if `hasText`, and `skip` more
are known to belong to them. -/
def plain? (o : Opening) (hasText : Bool) (length skip : Nat) : List Char → Option Piece
  | [] => none
  | c :: cs =>
    match skip with
    | skip + 1 => plain? o hasText (length + 1) skip cs
    | 0 =>
      if (c = '{' || c = '}') && o.isFormat then textOf hasText length
      else if c = '\\' && o.isRaw then
        let hidden := if cs.head? == some o.quote || cs.head? == some '\\' then 1 else 0
        let lineBreak :=
          match cs.drop hidden with
          | '\r' :: '\n' :: _ => 2
          | '\r' :: _ => 1
          | '\n' :: _ => 1
          | _ => 0
        plain? o hasText (length + 1) (hidden + lineBreak) cs
      else if c = '\\' && o.isBytes && cs.head?.any ['N', 'u', 'U'].contains then
        plain? o true (length + 1) 2 cs
      else if c = '\\' then textOf hasText length
      else if c = o.quote then
        if !o.isTriple then some (if hasText then .text length else .close (length + 1))
        else if cs.head? != some o.quote then some (.text (length + 1))
        else if cs.tail.head? != some o.quote then some (.text (length + 2))
        else some (if hasText then .text length else .close (length + 3))
      else if c = '\n' && hasText && !o.isTriple then none
      else plain? o true (length + 1) 0 cs

def read (o : Opening) (cs : List Char) : Piece :=
  if o.isFormat && (cs.take 2 == ['{', '{'] || cs.take 2 == ['}', '}']) then .brace
  else
    match plain? o false 0 0 cs with
    | some piece => piece
    | none =>
      match escapeLength cs with
      | 0 => if cs.head? == some '\\' then .backslash else .other
      | n + 1 => .escape (n + 1)

end Piece

end SymbolAtlas.Python
