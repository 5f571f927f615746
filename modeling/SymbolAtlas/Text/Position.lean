/-! # Places in a text

Lines and columns count from one. A column counts UTF-16 units since the last line feed, so a
character outside the basic plane is two columns wide, and only the line feed starts a new line.
A `Cursor` is a place together with the text still to be read from there.
-/

namespace SymbolAtlas

def utf16Width (c : Char) : Nat := if c.val < 0x10000 then 1 else 2

def utf16Length (cs : List Char) : Nat := cs.foldr (fun c n => utf16Width c + n) 0

@[simp] theorem utf16Length_nil : utf16Length [] = 0 := rfl

@[simp] theorem utf16Length_cons (c : Char) (cs : List Char) :
    utf16Length (c :: cs) = utf16Width c + utf16Length cs := rfl

@[simp] theorem utf16Length_append (cs ds : List Char) :
    utf16Length (cs ++ ds) = utf16Length cs + utf16Length ds := by
  induction cs with
  | nil => simp
  | cons c cs ih => simp [ih, Nat.add_assoc]

/-- A text without its first `n` UTF-16 units; a character of which only the first unit is to go
goes whole. -/
def dropUnits : Nat → List Char → List Char
  | _, [] => []
  | 0, c :: cs => c :: cs
  | n + 1, c :: cs => dropUnits (n + 1 - utf16Width c) cs

structure Position where
  line : Int
  column : Int
  deriving DecidableEq, Repr, Inhabited

namespace Position

def start : Position := ⟨1, 1⟩

def next (p : Position) (c : Char) : Position :=
  if c = '\n' then ⟨p.line + 1, 1⟩ else ⟨p.line, p.column + utf16Width c⟩

def after (p : Position) (cs : List Char) : Position := cs.foldl next p

@[simp] theorem after_nil (p : Position) : p.after [] = p := rfl

@[simp] theorem after_cons (p : Position) (c : Char) (cs : List Char) :
    p.after (c :: cs) = (p.next c).after cs := rfl

theorem after_append (p : Position) (cs ds : List Char) :
    p.after (cs ++ ds) = (p.after cs).after ds := by
  simp [after, List.foldl_append]

/-- Reading order: an earlier line, or an earlier column of the same line. -/
def before (p q : Position) : Bool :=
  decide (p.line < q.line) || (decide (p.line = q.line) && decide (p.column < q.column))

end Position

/-- A place in a text: how many characters lie before it, its line and column, and what follows. -/
structure Cursor where
  offset : Nat
  position : Position
  rest : List Char
  deriving DecidableEq, Repr

namespace Cursor

def ofList (cs : List Char) : Cursor := ⟨0, .start, cs⟩

/-- Step over up to `n` characters. -/
def advance : Nat → Cursor → Cursor
  | 0, c => c
  | _ + 1, ⟨o, p, []⟩ => ⟨o, p, []⟩
  | n + 1, ⟨o, p, ch :: cs⟩ => advance n ⟨o + 1, p.next ch, cs⟩

theorem advance_rest (n : Nat) (c : Cursor) : (c.advance n).rest = c.rest.drop n := by
  induction n generalizing c with
  | zero => rfl
  | succ n ih =>
    obtain ⟨o, p, rest⟩ := c
    cases rest with
    | nil => rfl
    | cons ch cs => exact ih _

theorem advance_position (n : Nat) (c : Cursor) :
    (c.advance n).position = c.position.after (c.rest.take n) := by
  induction n generalizing c with
  | zero => rfl
  | succ n ih =>
    obtain ⟨o, p, rest⟩ := c
    cases rest with
    | nil => rfl
    | cons ch cs => exact ih _

def slice (start stop : Cursor) : List Char := start.rest.take (stop.offset - start.offset)

end Cursor

/-- The offsets, in UTF-16 units, at which the lines after the first begin; `offset` units lie
before `cs`. -/
def lineBreaks (offset : Nat) : List Char → List Nat
  | [] => []
  | c :: cs =>
    let next := offset + utf16Width c
    if c = '\n' then next :: lineBreaks next cs else lineBreaks next cs

def lineStarts (cs : List Char) : List Nat := 0 :: lineBreaks 0 cs

structure LineIndex where
  starts : Array Nat
  deriving Repr

namespace LineIndex

def ofList (cs : List Char) : LineIndex := ⟨(lineStarts cs).toArray⟩

/-- Between lines `low` and `high`, the last one that begins at or before `offset`, or `low`. -/
def search (starts : Array Nat) (offset : Int) (low high : Nat) : Nat :=
  if low < high then
    let mid := (low + high + 1) / 2
    if (starts.getD mid 0 : Int) ≤ offset then search starts offset mid high
    else search starts offset low (mid - 1)
  else low
termination_by high - low

/-- The position at an offset in UTF-16 units. Offsets outside the text count from the nearest
line. -/
def locate (index : LineIndex) (offset : Int) : Position :=
  let low := search index.starts offset 0 (index.starts.size - 1)
  ⟨low + 1, offset - index.starts.getD low 0 + 1⟩

end LineIndex

end SymbolAtlas
