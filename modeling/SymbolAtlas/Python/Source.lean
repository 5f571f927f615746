import SymbolAtlas.Python.Grammar.Statement

/-! # Sources

A source is a sequence of statements. Where it does not follow the grammar, reading it comes to a
halt.
-/

namespace SymbolAtlas.Python

structure Halt where
  /-- The state at the start of the statement that does not follow the grammar. -/
  statement : State
  last : State

def atTop : Demand := { string := true }

/-- The statements from a state on, to the end of the source; at most `n` of them. -/
def statementsFrom : Nat → List (List Tree) → State → Except Halt (List Tree)
  | 0, _, s => .error ⟨s, s⟩
  | n + 1, chunks, s =>
    match s.ahead with
    | .finish => .ok ((s.extras :: chunks).reverse.flatten)
    | _ =>
      match Grammar.statement atTop { s with extras := [] } with
      | .ok (ts, s') => statementsFrom n (ts :: s.extras :: chunks) s'
      | .error e => .error ⟨s, e⟩

def statements (cs : List Char) : Except Halt (List Tree) :=
  let s := State.ofList cs atTop
  statementsFrom s.fuel [] s

end SymbolAtlas.Python
