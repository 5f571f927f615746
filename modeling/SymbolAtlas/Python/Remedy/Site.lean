import SymbolAtlas.Python.Phrase

/-! # Sites

A `Site` is what surrounds the place where reading a source came to a halt: the phrases of the
statement before it and some tokens after it. It tells what might be missing there, what may be
passed over, and which of two equally good explanations is preferred.
-/

namespace SymbolAtlas.Python

/-- What surrounds a place in a source. -/
structure Site where
  source : List Char
  /-- The indentation of the block. -/
  indentation : Nat
  /-- The phrases of the statement before the place, the last first. -/
  before : List Phrase
  /-- Some tokens from the place on. -/
  after : List Phrase

def beginsLine (cs : List Char) (offset : Nat) : Bool :=
  ((cs.take offset).reverse.takeWhile (· != '\n')).all isFiller

namespace Site

/-- The token at the place, unless the source ends there. -/
def this (site : Site) : Option Phrase := site.after.head?

/-- The offset of the `n`-th token from the place on, or of the end of the source. -/
def offsetAt (site : Site) (n : Nat) : Nat :=
  (site.after[n]?.map (·.start.offset)).getD site.source.length

/-! ## Brackets and lines -/

/-- The closing brackets that are due at the place, the innermost first. -/
def closers (site : Site) : List String :=
  site.before.foldr (fun p due =>
    if p.isText "(" then ")" :: due
    else if p.isText "[" then "]" :: due
    else if p.isText "\x7b" then "\x7d" :: due
    else if p.isClosing then due.tail
    else due) []

def isBracketed (site : Site) : Bool := !site.closers.isEmpty

/-- The phrases before the place since the last opening bracket that is not closed, the last
first. -/
def within (site : Site) : List Phrase := site.before.takeWhile (!·.isOpening)

/-- That opening bracket and the phrases before it, the last first. -/
def opened (site : Site) : List Phrase := site.before.dropWhile (!·.isOpening)

def isArgument (site : Site) : Bool :=
  match site.opened with
  | opening :: base :: _ => opening.isText "(" && base.isOperand && !base.isText "print"
  | _ => false

/-- The phrases before the place that belong to one line, the last first. After a colon or
semicolon a new one begins, but not while a bracket is open. -/
def line (site : Site) : List Phrase :=
  let step (p : Phrase) : Bool × List Phrase → Bool × List Phrase
    | (true, line) => (true, p :: line)
    | (false, line) =>
      if beginsLine site.source p.start.offset then (p.isOpening, [p])
      else if p.isAnyOf [";", ":"] then (false, [])
      else (p.isOpening, p :: line)
  (site.before.foldr step (false, [])).2

/-- The words that begin a line that announces a block. -/
def headerWords : List String :=
  ["if", "elif", "else", "while", "for", "with", "def", "class", "try", "except", "finally",
    "lambda", "match", "case", "async"]

def isHeader (site : Site) : Bool := site.line.getLast?.any (·.isAnyOf headerWords)

/-- Whether the block ends with a token: what follows begins a line that is less indented. -/
def endsBlock (site : Site) (p : Phrase) : Bool :=
  (Margin.read true p.stop.rest).any fun m => m.broken && m.width < site.indentation

/-! ## What may be missing -/

/-- Whether a line may end at the place. After a name, or what is reached through one, it may not
where something else could follow, such as an equals sign. -/
def mayEndLine (site : Site) : Bool :=
  match site.line with
  | [] => false
  | last :: earlier =>
    if site.line.getLast?.any (·.isAnyOf ["import", "from", "global", "nonlocal"]) then true
    else if !last.isPlace then true
    else if last.isToken then earlier.head?.any Phrase.bindsTightly
    else earlier.head?.any fun p => !p.isText "=" && (augmentation? p.chars).isNone

def mayClose (site : Site) : Bool :=
  match site.before with
  | last :: earlier =>
    let isName := last.isPlace && last.isToken && !(earlier.head?.any Phrase.bindsTightly)
    !isName || match earlier.dropWhile (!·.isOpening) with
      | _ :: base :: before => base.isOperand && !(before.head?.any (·.isText "def"))
      | _ => false
  | [] => false

/-! ## What may be passed over -/

/-- Whether an equals sign would be taken for one between the last brackets that are not closed,
because they hold the arguments of a call or follow a comma. If so, it does not belong to what
precedes these brackets, which are among the last `n` phrases. -/
def keepsSign (site : Site) (n : Nat) : Bool :=
  site.within.length < n &&
    (site.isArgument || site.within.any (·.isText ",") && !site.opened.head?.any (·.isText "["))

/-- Whether the last `n` phrases before the place may be passed over, so that a later token is
attached to what precedes them. After the sign of an assignment nothing may but what continues the
targets. -/
def isPassable (site : Site) (n : Nat) (resume : Option Phrase) : Bool :=
  match (site.before.take n).getLast? with
  | none => true
  | some p =>
    let attaches := p.isAnyOf ["(", "["] && (site.before.drop n).head?.any Phrase.isOperand
    !(resume.any (·.isText "=") && site.keepsSign n) &&
      !(resume.any Phrase.isSign && (p.isJoining || attaches)) &&
      !(n == 1 && (p.isSign && !site.isBracketed || p.isText ":=" ||
        p.isText ";" && !resume.any (·.isText ";")))

/-- Whether a later colon would be taken for that of a type after the name before the place, which
it is not. -/
def mistakesColon (site : Site) (n : Nat) : Bool :=
  0 < n && site.after[n]?.any (·.isText ":") && !site.isBracketed && !site.isHeader &&
    site.before.head?.any fun p => p.isOperand && p.isToken

/-! ## What is preferred -/

def endsOperand (site : Site) (p : Phrase) : Bool :=
  p.isAnyOf [")", "]", "\x7d", ";", "for", "from"] || p.isText ":" && !site.isBracketed ||
    p.isText "," && site.isArgument

/-- Whether to blame the token at the place rather than the phrase before it: what follows it ends
a construct, or it is a mark. -/
def blamesThis (site : Site) : Bool :=
  let follows := site.after[1]?.any fun p => p.isClosing || p.isAnyOf [":", ";"]
  let compares := site.this.any Phrase.isComparison && site.before.head?.any Phrase.isComparison
  1 < site.before.length && follows || site.this.any Phrase.isMark && !compares

/-! ## Where reading came to a halt -/

/-- How many tokens from the place on count. -/
def reach : Nat := 7

/-- Where reading a source came to a halt. At the sign of an assignment the operation before it is
one phrase. -/
def ofHalt (source : List Char) (halt : Halt) : Site :=
  let s := halt.statement
  let limit := halt.last.start.offset
  let tokens := tokensUpTo limit s.fuel reach { s with stop := s.start }
  let (before, after) := tokens.span fun p => p.start.offset < limit
  let site : Site := ⟨source, halt.last.blocks.headD 0, Phrase.ofTokens before, after⟩
  if site.this.any Phrase.isSign && !site.isBracketed && !site.isHeader then
    let (operation, earlier) := site.before.span Phrase.isOperation
    match operation.head?, operation.getLast? with
    | some last, some first => { site with before := first.join last :: earlier }
    | _, _ => site
  else site

end Site

end SymbolAtlas.Python
