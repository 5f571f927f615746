import SymbolAtlas.Python.Lexeme
import SymbolAtlas.Python.Tree

/-! # Parsing

A parser reads tokens one after another and builds trees. Which token comes next depends on what
the grammar has a place for, so with every token that a parser takes it says what may follow it.
Comments and joining backslashes that lie between two tokens wait until the later one is taken, and
then become its elder siblings.
-/

namespace SymbolAtlas.Python

inductive Ahead where
  /-- A token of layout, which takes no characters. -/
  | layout (token : Margin.Token)
  /-- The opening mark of a string. -/
  | string (opening : Opening) (length : Nat)
  /-- Something that the grammar reads off the characters. -/
  | characters
  | finish
  deriving DecidableEq, Repr

/-- Where a parser stands. -/
structure State where
  stop : Cursor
  /-- Comments and joining backslashes read since the last token. -/
  extras : List Tree
  start : Cursor
  ahead : Ahead
  /-- The indentations of the open blocks, the innermost first. -/
  blocks : List Nat
  /-- Whether the last opened or closed string mark opened interpolated text. -/
  inFormat : Bool
  /-- A bound on the depth of any construct and the number of any construct's parts. -/
  fuel : Nat

namespace State

/-- Find the next token and collect the comments and joining backslashes before it, at most `n` of
them. -/
def look (demand : Demand) : Nat → State → State
  | 0, s => { s with start := s.stop, ahead := .finish }
  | n + 1, s =>
    let margin := Margin.read demand.readsComments s.stop.rest
    match margin.bind (·.token? demand (s.blocks.headD 0) s.inFormat) with
    | some token => { s with start := s.stop, ahead := .layout token }
    | none =>
      let opening := do
        let m ← margin
        if demand.string && m.comment.isNone then
          let (opening, length) ← Opening.read m.rest
          return (m.length, opening, length)
        else none
      match opening with
      | some (blanks, opening, length) =>
        { s with start := s.stop.advance blanks, ahead := .string opening length }
      | none =>
        let start := s.stop.advance (s.stop.rest.takeWhile isFiller).length
        let withExtra (kind : Kind) (length : Nat) : State :=
          let stop := start.advance length
          look demand n { s with stop := stop, extras := s.extras ++ [Tree.leaf kind start stop] }
        match start.rest with
        | [] => { s with start := start, ahead := .finish }
        | '#' :: _ => withExtra .comment (commentLength start.rest)
        | _ =>
          match continuationLength? start.rest with
          | some length => withExtra .continuation length
          | none => { s with start := start, ahead := .characters }

/-- The state at the start of a source. A byte order mark is skipped. -/
def ofList (cs : List Char) (demand : Demand) : State :=
  let start := Cursor.ofList cs
  let stop := if cs.head? == some '\ufeff' then start.advance 1 else start
  let fuel := 8 * cs.length + 64
  look demand fuel ⟨stop, [], stop, .finish, [0], false, fuel⟩

/-- The characters of the next token and what follows it; none if it is a string or no token of
characters. -/
def chars (s : State) : List Char :=
  match s.ahead with
  | .characters => s.start.rest
  | _ => []

/-- Whether the next token is, or begins with, a mark. -/
def isAt (s : State) (mark : String) : Bool := mark.toList.isPrefixOf s.chars

def word (s : State) : String := String.ofList (wordOf s.chars)

def isAtWord (s : State) (w : String) : Bool := s.word == w

def isAtString (s : State) : Bool :=
  match s.ahead with
  | .string _ _ => true
  | _ => false

def isAtLineEnd (s : State) : Bool := s.ahead == .layout .lineEnd

def isAtDedent (s : State) : Bool := s.ahead == .layout .dedent

def indent? (s : State) : Option Nat :=
  match s.ahead with
  | .layout (.indent width) => some width
  | _ => none

/-- Whether something comes next that may begin an operand: a string, a word, a number, a bracket, a
sign or a star, or three dots. -/
def isAtOperand (s : State) : Bool :=
  s.isAtString ||
    match s.chars with
    | [] => false
    | c :: cs =>
      isWordStart c || Identifier.isAsciiDigit c || ['(', '[', '{', '~'].contains c ||
        (['-', '+', '*'].contains c && (augmentation? (c :: cs)).isNone) ||
        (c == '.' && (cs.head?.any Identifier.isAsciiDigit || cs.take 2 == ['.', '.']))

end State

/-- A parser. Where the source does not follow the grammar it fails, with the state from which it
could not go on. -/
abbrev Parse := StateT State (Except State)

namespace Parse

def fail {α : Type} : Parse α := fun s => .error s

/-- Do something as often as it succeeds in going on, with at most `n` steps. -/
def iterate {α : Type} (step : α → Parse (Option α)) : Nat → α → Parse α
  | 0, _ => fail
  | n + 1, a => fun s =>
    match step a s with
    | .error e => .error e
    | .ok (none, s') => .ok (a, s')
    | .ok (some b, s') => iterate step n b s'

def loop {α : Type} (a : α) (step : α → Parse (Option α)) : Parse α := fun s =>
  iterate step s.fuel a s

def require (condition : Bool) : Parse Unit := if condition then pure () else fail

def query {α : Type} (f : State → α) : Parse α := f <$> get

def look (demand : Demand) : Parse Unit := modify fun s => s.look demand s.fuel

def extras : Parse (List Tree) := do
  let s ← get
  set { s with extras := [] }
  return s.extras

/-- Take the next `length` characters as a token, without looking for another token. -/
def takeRaw (kind : Kind) (length : Nat) : Parse Tree := do
  let s ← get
  let stop := s.start.advance length
  set { s with stop := stop, extras := [], start := stop, ahead := .characters }
  return .leaf kind s.start stop

def take (kind : Kind) (length : Nat) (demand : Demand) : Parse Tree := do
  let t ← takeRaw kind length
  look demand
  return t

/-- Take the next `length` characters as a token that is not the first of its construct. -/
def token (kind : Kind) (length : Nat) (demand : Demand) : Parse (List Tree) := do
  let es ← extras
  return es ++ [← take kind length demand]

def mark (text : String) (demand : Demand) : Parse (List Tree) := do
  require (← query (·.isAt text))
  token .mark text.length demand

def keyword (word : String) (demand : Demand) : Parse (List Tree) := do
  require (← query (·.isAtWord word))
  token .mark word.length demand

def mark? (text : String) (demand : Demand) : Parse (List Tree) := do
  if ← query (·.isAt text) then token .mark text.length demand else return []

def name (demand : Demand) : Parse Tree := do
  let word ← query (·.word)
  require (word != "")
  take .identifier word.length demand

/-- A construct that is not the first part of the one it belongs to. -/
def child (p : Parse Tree) : Parse (List Tree) := do
  let es ← extras
  return es ++ [← p]

def childAs (field : Field) (p : Parse Tree) : Parse (List Tree) := child (.inField field <$> p)

/-- End a line, which must end here. It leaves no trace in the tree. -/
def lineEnd (demand : Demand) : Parse Unit := do
  require (← query (·.isAtLineEnd))
  look demand

def indent (demand : Demand) : Parse Unit := do
  match ← query (·.indent?) with
  | some width =>
    modify fun s => { s with blocks := width :: s.blocks }
    look demand
  | none => fail

def dedent (demand : Demand) : Parse Unit := do
  require (← query (·.isAtDedent))
  modify fun s => { s with blocks := s.blocks.tail }
  look demand

/-- A parser that is tried after another one failed with the state `e`. If it fails too, it does so
with the state that is further on. -/
def afterFailure {α : Type} (e : State) (p : Parse α) : Parse α := fun s =>
  match p s with
  | .ok r => .ok r
  | .error e' => .error (if e'.start.offset < e.start.offset then e else e')

def either {α : Type} (p q : Parse α) : Parse α := fun s =>
  match p s with
  | .ok r => .ok r
  | .error e => afterFailure e q s

end Parse

end SymbolAtlas.Python
