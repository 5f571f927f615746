import SymbolAtlas.Text.Position

/-! # Layout

Line breaks and indentation are tokens of their own, but only where the grammar has a place for
them: elsewhere a line break is a blank. What may stand next therefore decides how the blanks
before it are read. A `Demand` tells what may stand next, a `Margin` what the blanks are, and
`Margin.token?` which token of layout, if any, they make.
-/

namespace SymbolAtlas.Python

/-- What the grammar has a place for at a point, as far as layout depends on it. -/
structure Demand where
  lineEnd : Bool := false
  indent : Bool := false
  dedent : Bool := false
  string : Bool := false
  closer : Bool := false
  /-- The clause of a `try` that handles an exception. -/
  handler : Bool := false
  deriving DecidableEq, Repr, Inhabited

namespace Demand

def nothing : Demand := {}

def operand : Demand := { string := true }

def or (d e : Demand) : Demand where
  lineEnd := d.lineEnd || e.lineEnd
  indent := d.indent || e.indent
  dedent := d.dedent || e.dedent
  string := d.string || e.string
  closer := d.closer || e.closer
  handler := d.handler || e.handler

/-- Whether the lines of comments are skipped in search of the next indentation. -/
def readsComments (d : Demand) : Bool := d.lineEnd || d.indent || d.dedent || d.handler

end Demand

structure Margin where
  broken : Bool := false
  /-- The indentation of the token's line: a tab counts eight, and a carriage return or form feed
  begins anew. -/
  width : Nat := 0
  /-- The indentation of the first line of comments skipped. -/
  comment : Option Nat := none
  /-- How many characters the blanks take. -/
  length : Nat := 0
  rest : List Char
  deriving DecidableEq, Repr

namespace Margin

/-- Where a scan of blanks stands: between blanks, inside a comment, or after a backslash and
perhaps a carriage return, where only a line feed may follow. -/
inductive Stage where
  | blank
  | comment
  | backslash
  | backslashReturn
  deriving DecidableEq, Repr

/-- The margin `m`, whose rest is not yet set, continued over the text. There is none when a
comment stands in a line that has not ended, or when a backslash is not the last character of its
line. -/
def scan (readsComments : Bool) (stage : Stage) (m : Margin) : List Char → Option Margin
  | [] => some { m with broken := true, width := 0, rest := [] }
  | c :: cs =>
    let m := { m with length := m.length + 1 }
    match stage with
    | .comment =>
      if c = '\n' then scan readsComments .blank { m with width := 0 } cs
      else scan readsComments .comment m cs
    | .backslash =>
      if c = '\n' then scan readsComments .blank m cs
      else if c = '\r' then scan readsComments .backslashReturn m cs
      else none
    | .backslashReturn => if c = '\n' then scan readsComments .blank m cs else none
    | .blank =>
      if c = '\n' then scan readsComments .blank { m with broken := true, width := 0 } cs
      else if c = ' ' then scan readsComments .blank { m with width := m.width + 1 } cs
      else if c = '\t' then scan readsComments .blank { m with width := m.width + 8 } cs
      else if c = '\r' || c = '\x0c' then scan readsComments .blank { m with width := 0 } cs
      else if c = '\\' then scan readsComments .backslash m cs
      else if c = '#' && readsComments then
        if m.broken then
          scan readsComments .comment { m with comment := m.comment.or (some m.width) } cs
        else none
      else some { m with length := m.length - 1, rest := c :: cs }

def read (readsComments : Bool) (cs : List Char) : Option Margin :=
  scan readsComments .blank { rest := cs } cs

def isQuote (c : Char) : Bool := c == '"' || c == '\'' || c == '\x60'

inductive Token where
  | lineEnd
  | indent (width : Nat)
  | dedent
  deriving DecidableEq, Repr

/-- The token that a margin makes inside a block of indentation `block`. A deeper line opens a
block where one is wanted. A shallower one closes the block, unless a comment as deep as the block
comes first; it does so even where no block may end, except between brackets, before a string and
wherever else a line may end. In an interpolation (`inFormat`) blocks are not closed. -/
def token? (m : Margin) (demand : Demand) (block : Nat) (inFormat : Bool) : Option Token :=
  let closes := demand.dedent ||
    !(demand.lineEnd || demand.closer || (demand.string && m.rest.head?.any isQuote))
  if !m.broken then none
  else if demand.indent && block < m.width then some (.indent m.width)
  else if closes && m.width < block && !inFormat && m.comment.all (· < block) then some .dedent
  else if demand.lineEnd then some .lineEnd
  else none

end Margin

/-- The mark that opens a string: what its letters ask for, its quote and whether the quote is
written three times. -/
structure Opening where
  /-- Interpolated text: an `f` among the letters. -/
  isFormat : Bool
  /-- Backslashes are plain text: an `r` among the letters. -/
  isRaw : Bool
  /-- Bytes: a `b` among the letters. -/
  isBytes : Bool
  quote : Char
  isTriple : Bool
  deriving DecidableEq, Repr

namespace Opening

def isLetter (c : Char) : Bool := ['f', 'F', 'r', 'R', 'b', 'B', 'u', 'U'].contains c

/-- The opening mark at the head of a text and the number of characters it takes: any run of
letters, then a quote. Three double or single quotes in a row are one mark. -/
def read (cs : List Char) : Option (Opening × Nat) :=
  let letters := cs.takeWhile isLetter
  let has (small big : Char) : Bool := letters.contains small || letters.contains big
  let opening (quote : Char) (isTriple : Bool) : Opening :=
    ⟨has 'f' 'F', has 'r' 'R', has 'b' 'B', quote, isTriple⟩
  match cs.dropWhile isLetter with
  | '\x60' :: _ => some (opening '\x60' false, letters.length + 1)
  | '"' :: '"' :: '"' :: _ => some (opening '"' true, letters.length + 3)
  | '\'' :: '\'' :: '\'' :: _ => some (opening '\'' true, letters.length + 3)
  | '"' :: _ => some (opening '"' false, letters.length + 1)
  | '\'' :: _ => some (opening '\'' false, letters.length + 1)
  | _ => none

end Opening

end SymbolAtlas.Python
