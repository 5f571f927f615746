import SymbolAtlas.Python.Remedy.Site

/-! # Changes

A source may be changed where it does not follow the grammar: phrases and tokens around the place
are passed over, or a token is supplied. Each change has a cost.
-/

namespace SymbolAtlas.Python

structure Change where
  place : Position
  /-- The kind of token that it supplies, if it does. -/
  missing : Option String
  cost : Nat
  text : List Char
  /-- The offset, before the change, of the token at which the source goes on. -/
  resume : Nat
  /-- By how many characters that token comes later after the change. -/
  delay : Nat

/-- The text with blanks between two offsets, of which line feeds may be kept. -/
def blankOut (keepsLines : Bool) (start stop : Nat) (cs : List Char) : List Char :=
  let blank (c : Char) : Char := if keepsLines && c = '\n' then c else ' '
  cs.take start ++ ((cs.take stop).drop start).map blank ++ cs.drop stop

namespace Site

/-- What it costs to pass over a text of some tokens: for each token, for each UTF-16 unit and for
each line. -/
def passingCost (count : Nat) (text : List Char) : Nat :=
  100 * count + 2 * utf16Length text + 30 * text.count '\n'

def supplyCost : Nat := 110

def skippingCost (site : Site) (n : Nat) : Nat :=
  (site.after.take n).foldl (fun cost p => cost + passingCost p.weight p.chars) 0

/-- Pass over the last `m` phrases before the place and the first `n` tokens from there on. A line
does not end where tokens are missing, so the next line goes on from them, unless they begin a line
themselves. -/
def passOver? (site : Site) (m n : Nat) : Option Change := do
  let skipped := site.after.take n
  let passed := (site.before.take m).reverse ++ skipped
  let start ← passed.head?.map (·.start)
  let last ← passed.getLast?
  let weight := skipped.foldl (fun weight p => weight + p.weight) m
  let cost := passingCost weight (start.slice last.stop)
  let change (keepsLines : Bool) (stop : Cursor) : Change :=
    let text := blankOut keepsLines start.offset stop.offset site.source
    ⟨start.position, none, cost, text, site.offsetAt n, 0⟩
  if beginsLine site.source start.offset then
    if site.this.isNone && site.isBracketed then none else some (change true last.stop)
  else
    let next ← site.after[n]?
    if site.endsBlock last then none else some (change false next.start)

/-- Supply a token of some kind, written as `text`, after the last phrase before the place. -/
def supply? (site : Site) (kind text : String) : Option Change := do
  let stop ← site.before.head?.map (·.stop)
  let resume ← site.this.map (·.start.offset)
  let rest := (blankOut false stop.offset resume site.source).drop stop.offset
  let text := text.toList
  some ⟨stop.position, some kind, supplyCost, site.source.take stop.offset ++ text ++ rest, resume,
    text.length⟩

/-- Supply an operand or, after a dot or where modules are named, a name. -/
def supplyName? (site : Site) : Option Change :=
  let wantsName := site.before.head?.any (·.isAnyOf [".", "import", "from"])
  site.supply? "identifier" (if wantsName then " _ " else " 0 ")

def supplyLineEnd? (site : Site) : Option Change :=
  if site.mayEndLine then
    site.supply? "_newline" (String.ofList ('\n' :: List.replicate site.indentation ' '))
  else none

def supplyCloser? (site : Site) : Option Change := do
  let closer ← site.closers.head?
  if site.mayClose then site.supply? closer closer else none

/-- The changes that supply a token, the preferred one first. -/
def supplies (site : Site) : List Change :=
  [site.supplyName?, site.supplyLineEnd?, site.supplyCloser?].reduceOption

end Site

end SymbolAtlas.Python
