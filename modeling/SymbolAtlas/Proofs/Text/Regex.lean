import Mathlib.Data.List.Basic
import SymbolAtlas.Text.Blank

/-! # Regular expressions for fixed texts

The text of an expression is read as far as alternatives of fixed texts need it: characters that
stand for themselves, characters of the syntax behind a backslash, alternatives, groups that capture
nothing, and the anchor at the end of the text. A text with any other construct is refused.

The ways to match are tried in order, so an expression tells what each of them leaves of a text. A
text quoted character by character is read as that text, whatever characters it has.
-/

namespace SymbolAtlas

/-- An expression without captures, repetitions and classes. -/
inductive Regex
  | empty
  | char (c : Char)
  | atEnd
  | seq (first second : Regex)
  | alt (first second : Regex)
  deriving DecidableEq, Repr

namespace Regex

/-! ## Reading -/

def isSyntax (c : Char) : Bool :=
  ['^', '$', '\\', '.', '*', '+', '?', '(', ')', '[', ']', '{', '}', '|'].contains c

/-- What is read of a group: the alternatives before the current one, the last of them first, and
the current one so far. -/
structure Group where
  before : List Regex
  current : Regex

def Group.opened : Group := ⟨[], .empty⟩

def Group.add (g : Group) (term : Regex) : Group := ⟨g.before, .seq g.current term⟩

def Group.next (g : Group) : Group := ⟨g.current :: g.before, .empty⟩

def Group.closed (g : Group) : Regex := g.before.foldl (fun rest r => .alt r rest) g.current

/-- Read on in the group `inner`, which stands in the groups `outer`, the innermost first. -/
def readFrom (outer : List Group) (inner : Group) : List Char → Option Regex
  | [] => if outer.isEmpty then some inner.closed else none
  | '(' :: '?' :: ':' :: cs => readFrom (inner :: outer) .opened cs
  | ')' :: cs =>
    match outer with
    | [] => none
    | g :: outer => readFrom outer (g.add inner.closed) cs
  | '|' :: cs => readFrom outer inner.next cs
  | '$' :: cs => readFrom outer (inner.add .atEnd) cs
  | '\\' :: c :: cs => if isSyntax c then readFrom outer (inner.add (.char c)) cs else none
  | c :: cs => if isSyntax c then none else readFrom outer (inner.add (.char c)) cs

def read (cs : List Char) : Option Regex := readFrom [] .opened cs

/-! ## Matching -/

/-- What the ways to match the head of a text leave of it, in the order in which they are tried. -/
def rests : Regex → List Char → List (List Char)
  | .empty, cs => [cs]
  | .char _, [] => []
  | .char c, d :: cs => if d = c then [cs] else []
  | .atEnd, cs => if cs = [] then [cs] else []
  | .seq r s, cs => (rests r cs).flatMap (rests s)
  | .alt r s, cs => rests r cs ++ rests s cs

/-- A text without its first match: the leftmost one, and of those the one tried first. -/
def cutFirst (r : Regex) : List Char → List Char
  | [] => []
  | c :: cs =>
    match (rests r (c :: cs)).head? with
    | some rest => rest
    | none => c :: cutFirst r cs

/-! ## Quoted texts -/

/-- A text with a backslash before every character that could be part of the syntax. -/
def quote (cs : List Char) : List Char :=
  cs.flatMap fun c =>
    if ['.', '*', '+', '?', '^', '$', '{', '}', '(', ')', '|', '[', ']', '\\'].contains c then
      ['\\', c]
    else [c]

def followedBy (r : Regex) (cs : List Char) : Regex := cs.foldl (fun r c => .seq r (.char c)) r

def anyOf (text : List Char) : List (List Char) → Regex
  | [] => empty.followedBy text
  | other :: others => .alt (empty.followedBy text) (anyOf other others)

theorem quote_cons (c : Char) (cs : List Char) :
    quote (c :: cs) = (if isSyntax c then ['\\', c] else [c]) ++ quote cs := by
  have hperm : ['.', '*', '+', '?', '^', '$', '{', '}', '(', ')', '|', '[', ']', '\\'].Perm
      ['^', '$', '\\', '.', '*', '+', '?', '(', ')', '[', ']', '{', '}', '|'] := by decide
  rw [quote, List.flatMap_cons, hperm.contains_eq]
  rfl

/-- A character that is not of the syntax stands for itself. -/
theorem readFrom_cons {c : Char} (h : isSyntax c = false) (outer : List Group) (inner : Group)
    (cs : List Char) : readFrom outer inner (c :: cs) = readFrom outer (inner.add (.char c)) cs := by
  rw [readFrom]
  · rw [h]
    rfl
  -- Every other case of the reader begins with a character of the syntax.
  all_goals
    intros
    subst_vars
    cases h

/-- A quoted text is read as the text itself. -/
theorem readFrom_quote (outer : List Group) (before : List Regex) (current : Regex)
    (cs rest : List Char) :
    readFrom outer ⟨before, current⟩ (quote cs ++ rest) =
      readFrom outer ⟨before, current.followedBy cs⟩ rest := by
  induction cs generalizing current with
  | nil => rfl
  | cons c cs ih =>
    rw [quote_cons]
    by_cases hc : isSyntax c = true
    · rw [if_pos hc]
      exact (if_pos hc).trans (ih _)
    · rw [if_neg hc]
      exact (readFrom_cons (Bool.eq_false_iff.mpr hc) _ _ _).trans (ih _)

/-- Quoted texts between bars are read, up to the end of their group, as alternatives that come
after those before them. -/
theorem readFrom_joinWith (outer : List Group) (g : Group) (before : List Regex) (text : List Char)
    (others : List (List Char)) (rest : List Char) :
    readFrom (g :: outer) ⟨before, .empty⟩
        (joinWith ['|'] ((text :: others).map quote) ++ ')' :: rest) =
      readFrom outer (g.add (Group.closed ⟨before, anyOf text others⟩)) rest := by
  induction others generalizing text before with
  | nil =>
    rw [joinWith]
    simp only [List.map_cons, List.map_nil, List.intersperse_singleton, List.flatten_cons,
      List.flatten_nil, List.append_nil, readFrom_quote]
    rfl
  | cons other others ih =>
    have hjoin : joinWith ['|'] ((text :: other :: others).map quote) ++ ')' :: rest =
        quote text ++ '|' :: (joinWith ['|'] ((other :: others).map quote) ++ ')' :: rest) := by
      simp [joinWith]
    rw [hjoin, readFrom_quote]
    exact ih (empty.followedBy text :: before) other

/-! ## What is left -/

theorem mem_rests_empty {cs rest : List Char} : rest ∈ rests .empty cs ↔ rest = cs :=
  List.mem_singleton

theorem mem_rests_char {c : Char} {cs rest : List Char} :
    rest ∈ rests (.char c) cs ↔ cs = c :: rest := by
  cases cs with
  | nil => simp [rests]
  | cons d cs =>
    rw [rests]
    split
    · next h => simp [h, eq_comm]
    · next h => simp [h]

theorem mem_rests_atEnd {cs rest : List Char} : rest ∈ rests .atEnd cs ↔ cs = [] ∧ rest = [] := by
  rw [rests]
  split
  · next h => simp [h]
  · next h => simp [h]

theorem mem_rests_seq {r s : Regex} {cs rest : List Char} :
    rest ∈ rests (.seq r s) cs ↔ ∃ middle ∈ rests r cs, rest ∈ rests s middle :=
  List.mem_flatMap

theorem mem_rests_alt {r s : Regex} {cs rest : List Char} :
    rest ∈ rests (.alt r s) cs ↔ rest ∈ rests r cs ∨ rest ∈ rests s cs :=
  List.mem_append

theorem mem_rests_followedBy {r : Regex} {text cs rest : List Char} :
    rest ∈ rests (r.followedBy text) cs ↔ text ++ rest ∈ rests r cs := by
  induction text generalizing r with
  | nil => rfl
  | cons c text ih =>
    have hstep : r.followedBy (c :: text) = (seq r (.char c)).followedBy text := rfl
    rw [hstep, ih, mem_rests_seq]
    simp only [mem_rests_char, exists_eq_right, List.cons_append]

/-- The alternatives of fixed texts match the head of a text where one of them stands. -/
theorem mem_rests_anyOf {text cs rest : List Char} {others : List (List Char)} :
    rest ∈ rests (anyOf text others) cs ↔ ∃ t ∈ text :: others, cs = t ++ rest := by
  have hfixed (text : List Char) : rest ∈ rests (empty.followedBy text) cs ↔ cs = text ++ rest := by
    rw [mem_rests_followedBy, mem_rests_empty, eq_comm]
  induction others generalizing text with
  | nil => simp [anyOf, hfixed]
  | cons other others ih =>
    rw [anyOf, mem_rests_alt, hfixed, List.exists_mem_cons_iff]
    exact or_congr_right ih

end Regex

end SymbolAtlas
