import SymbolAtlas.Python.Tree

/-! # Targets and starred operands

Before the equals sign of an assignment is read, its targets read as expressions. `asTarget?` is the
target that an expression may serve as: a name, an attribute, a subscript, a starred one of these,
or a bracketed list of targets.
-/

namespace SymbolAtlas.Python.Tree

/-- Whether the node may be bound as it stands: a name, an attribute or a subscript. -/
def isBindable (t : Tree) : Bool :=
  t.kind == .identifier || t.kind == .attribute || t.kind == .subscript

mutual

def asTarget? : Tree → Option Tree
  | ⟨kind, field, start, stop, children⟩ =>
    match kind with
    | .identifier | .attribute | .subscript => some ⟨kind, field, start, stop, children⟩
    | .tuple | .parenthesized =>
      (asTargets? children).map fun ts => ⟨.tuplePattern, field, start, stop, ts⟩
    | .list => (asTargets? children).map fun ts => ⟨.listPattern, field, start, stop, ts⟩
    | .listSplat =>
      if children.all fun t => t.isExtra || !t.isNamed || t.isBindable then
        some ⟨.listSplatPattern, field, start, stop, children⟩
      else none
    | _ => none

def asTargets? : List Tree → Option (List Tree)
  | [] => some []
  | t :: ts => do
    let t' ← if t.isNamed && !t.isExtra then asTarget? t else some t
    return t' :: (← asTargets? ts)

end

/-- An operand with the stars before it. A star stars the part of the operand that may be bound: all
of it, or of a call what is called; the stars that follow star parts of what that is reached
through. -/
def starred? (stars : List (List Tree)) : Tree → Option Tree
  | ⟨kind, field, start, stop, children⟩ =>
    match stars, kind, children with
    | [], _, _ => some ⟨kind, field, start, stop, children⟩
    | [star], .identifier, _ =>
      some (.node .listSplat (star ++ [⟨kind, field, start, stop, children⟩]))
    | star :: stars, .attribute, base :: rest =>
      (starred? stars base).map fun t =>
        .node .listSplat (star ++ [.node kind (t.inField .object :: rest)])
    | star :: stars, .subscript, base :: rest =>
      (starred? stars base).map fun t =>
        .node .listSplat (star ++ [.node kind (t.inField .value :: rest)])
    | stars, .call, base :: rest =>
      (starred? stars base).map fun t => .node .call (t.inField .function :: rest)
    | _, _, _ => none

mutual

/-- How many stars the leftmost operand of an expression has a part for. -/
def starCapacity : Tree → Nat
  | ⟨kind, _, _, _, children⟩ =>
    match kind, children with
    | .identifier, _ => 1
    | .attribute, base :: _ | .subscript, base :: _ => 1 + starCapacity base
    | .call, t :: _ | .comparisonOperator, t :: _ | .booleanOperator, t :: _
    | .binaryOperator, t :: _ | .conditional, t :: _ | .asPattern, t :: _ => starCapacity t
    | .listSplat, ts => lastStarCapacity ts - 1
    | _, _ => 0

def lastStarCapacity : List Tree → Nat
  | [] => 0
  | [t] => starCapacity t
  | _ :: t :: ts => lastStarCapacity (t :: ts)

end

/-- Whether a star and the expression it precedes are one expression. -/
def takesStar (t : Tree) : Bool := 0 < t.starCapacity

end SymbolAtlas.Python.Tree
