import SymbolAtlas.Proofs.Script.ClosedStatement
import SymbolAtlas.Proofs.Script.WordNames
import SymbolAtlas.Proofs.Token.Moved

/-! # Declared names and the places of tokens

The readers of declarations ask of two places only whether they are on one line, and there how far
they lie apart. So a script declares the same names when its tokens are moved within their lines,
all those of a line by as many columns.
-/

namespace SymbolAtlas

namespace Position

/-- A change of places that leaves each on its line, and the places of a line as far apart as they
are. -/
structure KeepsLines (f : Position → Position) : Prop where
  line_eq : ∀ p, (f p).line = p.line
  column_sub : ∀ p q, p.line = q.line → (f q).column - (f p).column = q.column - p.column

end Position

namespace Token

variable (f : Position → Position) (t : Token)

@[simp] theorem is_move (k : Kind) (s : String) : (t.move f).is k s = t.is k s := by
  rw [is, hasKind_move, text_move, is]

@[simp] theorem isMark_move (s : String) : (t.move f).isMark s = t.isMark s := is_move f t _ s

@[simp] theorem isOperator_move (s : String) : (t.move f).isOperator s = t.isOperator s :=
  is_move f t _ s

@[simp] theorem isWord_move : (t.move f).isWord = t.isWord := by
  rw [isWord, hasKind_move, hasKind_move, isWord]

@[simp] theorem isWordOf_move (s : String) : (t.move f).isWordOf s = t.isWordOf s := by
  rw [isWordOf, isWord_move, text_move, isWordOf]

@[simp] theorem isOpener_move : (t.move f).isOpener = t.isOpener := by
  rw [isOpener, hasKind_move, text_move, isOpener]

@[simp] theorem isCloser_move : (t.move f).isCloser = t.isCloser := by
  rw [isCloser, hasKind_move, text_move, isCloser]

@[simp] theorem position_move : (t.move f).position = f t.position := by
  cases t with
  | plain k p s => rw [move_plain]; rfl
  | template p s inside => rw [move_template]; rfl

variable {f}

theorem line_move (hf : Position.KeepsLines f) : (t.move f).line = t.line := by
  rw [line, position_move, hf.line_eq, line]

end Token

namespace Script

open Token

variable {f : Position → Position}

@[simp] theorem isModifier_move (t : Token) : isModifier (t.move f) = isModifier t := by
  rw [isModifier, isWord_move, text_move, isModifier]

@[simp] theorem isDeclarable_move (t : Token) : isDeclarable (t.move f) = isDeclarable t := by
  rw [isDeclarable, hasKind_move, text_move, isDeclarable]

@[simp] theorem expectsMore_move (t : Token) : expectsMore (t.move f) = expectsMore t := by
  rw [expectsMore, hasKind_move, text_move, expectsMore]

@[simp] theorem angleChange_move (t : Token) : angleChange (t.move f) = angleChange t := by
  simp only [angleChange, isOperator_move]

@[simp] theorem angleDepth_move (depth : Nat) (t : Token) :
    angleDepth depth (t.move f) = angleDepth depth t := by
  rw [angleDepth, angleChange_move, angleDepth]

@[simp] theorem bracketDepth_move (depth : Nat) (t : Token) :
    bracketDepth depth (t.move f) = bracketDepth depth t := by
  rw [bracketDepth, isOpener_move, isCloser_move, bracketDepth]

@[simp] theorem breaksBetween_move (p t : Token) :
    breaksBetween (p.move f) (t.move f) = breaksBetween p t := by
  simp only [breaksBetween, hasKind_move, expectsMore_move, isMark_move]

/-! ## Readers -/

/-- The reader leaves the moved tokens where it leaves the tokens. -/
def Equivariant (f : Position → Position) (read : List Token → List Token) : Prop :=
  ∀ ts, read (ts.map (move f)) = (read ts).map (move f)

namespace Equivariant

variable {read read' : List Token → List Token}

theorem id : Equivariant f id := fun _ => rfl

theorem comp (h : Equivariant f read) (h' : Equivariant f read') :
    Equivariant f fun ts => read (read' ts) :=
  fun ts => (congrArg read (h' ts)).trans (h _)

theorem stepOver (h : Equivariant f read) {p : Token → Bool} (hp : ∀ t, p (t.move f) = p t) :
    Equivariant f (stepOver p read) := by
  intro ts
  cases ts with
  | nil => rfl
  | cons t ts =>
    rw [List.map_cons, Script.stepOver, Script.stepOver, hp]
    split
    · exact h ts
    · rfl

end Equivariant

theorem equivariant_fromStop (stops : List String) (depth : Nat) :
    Equivariant f (fromStop stops depth) := by
  intro ts
  induction ts generalizing depth with
  | nil => rfl
  | cons t ts ih =>
    rw [List.map_cons, fromStop_cons, fromStop_cons]
    simp only [hasKind_move, text_move, isOpener_move, isCloser_move]
    split
    · rfl
    split
    · exact ih _
    split
    · cases depth with
      | zero => rfl
      | succ depth => exact ih depth
    · exact ih _

theorem untilClosed_move (depth : Nat) (ts : List Token) :
    untilClosed depth (ts.map (move f)) =
      (untilClosed depth ts).map (Prod.map (List.map (move f)) (List.map (move f))) := by
  induction ts generalizing depth with
  | nil => rfl
  | cons t ts ih =>
    rw [List.map_cons, untilClosed_cons, untilClosed_cons]
    simp only [isOpener_move, isCloser_move, ih]
    split
    · simp only [Option.map_map]
      rfl
    split
    · cases depth with
      | zero => rfl
      | succ depth =>
        simp only [Option.map_map]
        rfl
    · simp only [Option.map_map]
      rfl

theorem equivariant_afterClosed : Equivariant f afterClosed := by
  intro ts
  rw [afterClosed, afterClosed, untilClosed_move]
  cases untilClosed 0 ts <;> rfl

theorem equivariant_afterAngles (depth : Int) : Equivariant f (afterAngles depth) := by
  intro ts
  induction ts generalizing depth with
  | nil => rfl
  | cons t ts ih =>
    simp only [List.map_cons, afterAngles, angleChange_move]
    split
    · rfl
    · exact ih _

theorem equivariant_afterVariableType (depth angles : Nat) :
    Equivariant f (afterVariableType depth angles) := by
  intro ts
  induction ts generalizing depth angles with
  | nil => rfl
  | cons t ts ih =>
    rw [List.map_cons, afterVariableType_cons, afterVariableType_cons]
    simp only [bracketDepth_move, isCloser_move, angleDepth_move, isOperator_move, isMark_move]
    split
    · rfl
    split
    · rfl
    · exact ih _ _

theorem opensTypeArguments_move (hf : Position.KeepsLines f) (before : Option Token) (t : Token) :
    opensTypeArguments (before.map (move f)) (t.move f) = opensTypeArguments before t := by
  cases before with
  | none => simp [opensTypeArguments]
  | some p =>
    have hcolumn : (p.line == t.line && (p.move f).column + utf16Length p.text.toList ==
        (t.move f).column) = (p.line == t.line && p.column + utf16Length p.text.toList ==
        t.column) := by
      by_cases hline : p.line = t.line
      · have hsub := hf.column_sub p.position t.position hline
        simp only [column, position_move]
        congr 1
        rw [Bool.eq_iff_iff, beq_iff_eq, beq_iff_eq]
        omega
      · rw [beq_eq_false_iff_ne.mpr hline, Bool.false_and, Bool.false_and]
    simp only [opensTypeArguments, Option.map_some, Option.any_some, isOperator_move, hasKind_move,
      line_move _ hf, text_move, Bool.and_assoc]
    rw [hcolumn]

theorem typeArgumentDepth_move (hf : Position.KeepsLines f) (before : Option Token) (angles : Nat)
    (t : Token) :
    typeArgumentDepth (before.map (move f)) angles (t.move f) =
      typeArgumentDepth before angles t := by
  rw [typeArgumentDepth, opensTypeArguments_move hf, angleChange_move, angleDepth_move,
    typeArgumentDepth]

theorem afterInitializer_move (hf : Position.KeepsLines f) (before : Option Token)
    (depth angles : Nat) (ts : List Token) :
    afterInitializer (before.map (move f)) depth angles (ts.map (move f)) =
      (afterInitializer before depth angles ts).map (move f) := by
  induction ts generalizing before depth angles with
  | nil => rfl
  | cons t ts ih =>
    have hbefore : (before.map (move f)).any (fun p => p.line < (t.move f).line &&
        breaksBetween p (t.move f)) = before.any fun p => p.line < t.line && breaksBetween p t := by
      cases before with
      | none => rfl
      | some p => simp only [Option.map_some, Option.any_some, line_move _ hf, breaksBetween_move]
    rw [List.map_cons, afterInitializer_cons, afterInitializer_cons, hbefore]
    simp only [isCloser_move, bracketDepth_move, isMark_move, typeArgumentDepth_move hf]
    split
    · rfl
    split
    · rfl
    split
    · rfl
    · exact ih (some t) _ _

theorem equivariant_afterInitializer (hf : Position.KeepsLines f) :
    Equivariant f (afterInitializer none 0 0) :=
  afterInitializer_move hf none 0 0

theorem equivariant_afterDeclarator (hf : Position.KeepsLines f) :
    Equivariant f afterDeclarator := by
  rw [funext afterDeclarator_eq]
  exact ((equivariant_afterInitializer hf).stepOver fun t => isOperator_move f t _).comp
    (((equivariant_afterVariableType 0 0).stepOver fun t => isMark_move f t _).comp
      (Equivariant.id.stepOver fun t => isOperator_move f t _))

theorem equivariant_afterDefaultValue (closer : String) :
    Equivariant f (afterDefaultValue closer) := by
  rw [afterDefaultValue_eq]
  exact (equivariant_fromStop _ 0).stepOver fun t => isOperator_move f t _

theorem equivariant_afterKey : Equivariant f afterKey := by
  intro ts
  cases ts with
  | nil => rfl
  | cons t ts =>
    simp only [List.map_cons, afterKey, isMark_move]
    split
    · exact equivariant_afterClosed ts
    · rfl

theorem equivariant_afterTypeParameters : Equivariant f afterTypeParameters := by
  intro ts
  cases ts with
  | nil => rfl
  | cons t ts =>
    simp only [List.map_cons, afterTypeParameters, isOperator_move]
    split
    · exact equivariant_afterAngles 0 (t :: ts)
    · rfl

/-! ## Patterns and declarators -/

def moveSplit (f : Position → Position) : List Token × List Token → List Token × List Token :=
  Prod.map (List.map (move f)) (List.map (move f))

section Pattern

variable {steps : Nat}

/-- A target that is read in `steps` steps is read where the tokens are moved. -/
def TargetsMove (f : Position → Position) (steps : Nat) : Prop :=
  ∀ ts, target? steps (ts.map (move f)) = (target? steps ts).map (moveSplit f)

def EntriesMove (f : Position → Position) (steps : Nat) : Prop :=
  ∀ closer ts, entries steps closer (ts.map (move f)) = moveSplit f (entries steps closer ts)

theorem TargetsMove.getD (ih : TargetsMove f steps) (us : List Token) :
    (target? steps (us.map (move f))).getD ([], us.map (move f)) =
      moveSplit f ((target? steps us).getD ([], us)) := by
  rw [ih us]
  cases target? steps us <;> rfl

theorem TargetsMove.keyedTarget (ih : TargetsMove f steps) (own us : List Token) :
    keyedTarget steps (own.map (move f)) (us.map (move f)) =
      moveSplit f (keyedTarget steps own us) := by
  cases us with
  | nil => rfl
  | cons colon rest =>
    rw [List.map_cons, Script.keyedTarget, Script.keyedTarget, isMark_move]
    split
    · exact ih.getD rest
    · rfl

theorem TargetsMove.entry (ih : TargetsMove f steps) (closer : String) (t : Token)
    (ts : List Token) :
    entry steps closer (t.move f) (ts.map (move f)) = moveSplit f (entry steps closer t ts) := by
  have hown : (if (t.move f).hasKind .identifier then [t.move f] else []) =
      (if t.hasKind .identifier then [t] else []).map (move f) := by
    rw [hasKind_move]
    split <;> rfl
  rw [Script.entry, Script.entry, isMark_move, hown, ← List.map_cons, equivariant_afterKey]
  split
  · exact ih.getD ts
  split
  · exact ih.keyedTarget _ _
  · rw [ih (t :: ts)]
    cases target? steps (t :: ts) <;> rfl

theorem EntriesMove.targetsMove (ih : EntriesMove f steps) : TargetsMove f (steps + 1) := by
  intro ts
  cases ts with
  | nil => rw [List.map_nil, target_nil]; rfl
  | cons t ts =>
    rw [List.map_cons, target_cons, target_cons, isMark_move, isMark_move, hasKind_move, ih, ih]
    split
    · rfl
    split
    · rfl
    split
    · rfl
    · rfl

theorem EntriesMove.succ (ihTarget : TargetsMove f steps) (ih : EntriesMove f steps) :
    EntriesMove f (steps + 1) := by
  intro closer ts
  cases ts with
  | nil => simp [entries, moveSplit]
  | cons t ts =>
    rw [List.map_cons, entries_cons, entries_cons, isMark_move, isMark_move]
    split
    · rfl
    split
    · exact ih closer ts
    · rw [ihTarget.entry]
      simp only [moveSplit, Prod.map_fst, Prod.map_snd]
      rw [equivariant_afterDefaultValue, ih]
      simp [moveSplit]

theorem pattern_move (f : Position → Position) (steps : Nat) :
    TargetsMove f steps ∧ EntriesMove f steps := by
  induction steps with
  | zero => exact ⟨fun _ => by rw [target?, target?]; rfl, fun _ _ => by rw [entries, entries]; rfl⟩
  | succ steps ih => exact ⟨ih.2.targetsMove, ih.2.succ ih.1⟩

end Pattern

theorem declaratorNames_move (hf : Position.KeepsLines f) (steps : Nat) (ts : List Token) :
    declaratorNames steps (ts.map (move f)) = (declaratorNames steps ts).map (move f) := by
  induction steps generalizing ts with
  | zero => rfl
  | succ steps ih =>
    rw [declaratorNames, declaratorNames, List.length_map, (pattern_move f _).1]
    cases htarget : target? (2 * ts.length + 1) ts with
    | none => rfl
    | some split =>
      obtain ⟨names, rest⟩ := split
      simp only [Option.map_some, moveSplit, Prod.map_apply, equivariant_afterDeclarator hf rest]
      cases afterDeclarator rest with
      | nil => rfl
      | cons comma after =>
        simp only [List.map_cons, isMark_move, ih]
        split
        · rw [List.map_append]
        · rfl

theorem variableNames_move (hf : Position.KeepsLines f) (ts : List Token) :
    variableNames (ts.map (move f)) = (variableNames ts).map (move f) := by
  rw [variableNames, List.length_map, declaratorNames_move hf, variableNames]

/-! ## Names -/

theorem declarableNames_move (ts : List Token) :
    declarableNames (ts.map (move f)) = declarableNames ts := by
  have hdeclarable : isDeclarable ∘ move f = isDeclarable := funext isDeclarable_move
  have htext : Token.text ∘ move f = Token.text := funext (text_move f)
  rw [declarableNames, List.filter_map, List.map_map, hdeclarable, htext, declarableNames]

theorem headName_move (ts : List Token) : headName (ts.map (move f)) = headName ts := by
  cases ts with
  | nil => rfl
  | cons t ts =>
    rw [List.map_cons, headName, headName, List.head?_cons, List.head?_cons, Option.filter_some,
      Option.filter_some, isDeclarable_move]
    split
    · rw [Option.map_some, Option.map_some, text_move]
    · rfl

theorem any_head?_move {p : Token → Bool} (hp : ∀ t, p (t.move f) = p t) (ts : List Token) :
    (ts.map (move f)).head?.any p = ts.head?.any p := by
  cases ts with
  | nil => rfl
  | cons t ts => exact hp t

theorem definesAlias_move (ts : List Token) : definesAlias (ts.map (move f)) = definesAlias ts := by
  rw [definesAlias_eq, definesAlias_eq, equivariant_afterTypeParameters]
  exact any_head?_move (fun t => isOperator_move f t _) _

/-- A word declares the same names before the moved tokens. -/
theorem namesAt_move (hf : Position.KeepsLines f) (starts : Bool) (t : Token) (rest : List Token) :
    namesAt starts (t.move f) (rest.map (move f)) = namesAt starts t rest := by
  have hnames : declarableNames (variableNames (rest.map (move f))) =
      declarableNames (variableNames rest) := by
    rw [variableNames_move hf, declarableNames_move]
  have hstar : stepOver (·.isOperator "*") id (rest.map (move f)) =
      (stepOver (·.isOperator "*") id rest).map (move f) :=
    Equivariant.id.stepOver (fun t => isOperator_move f t _) rest
  unfold namesAt
  rw [text_move, any_head?_move (fun t => isWordOf_move f t _), hnames, hstar, headName_move,
    headName_move, ← List.map_tail, definesAlias_move]

section Before

variable {near far far' ts : List Token} {last last' t : Token}

theorem isModifier_of_operator (h : t.hasKind .operator = true) : isModifier t = false := by
  rw [isModifier, isWord_of_hasKind h (by decide) (by decide), Bool.false_and]

theorem getLastD_move (ts : List Token) (t : Token) :
    (ts.map (move f)).getLastD (t.move f) = (ts.getLastD t).move f := by
  rw [List.getLastD_eq_getLast?, List.getLastD_eq_getLast?, List.getLast?_map]
  cases ts.getLast? <;> rfl

/-- Whether a word begins a statement depends on no token before an operator, and on no place. -/
theorem startsStatement_move (hf : Position.KeepsLines f) (hlast : last.hasKind .operator = true)
    (hlast' : last'.hasKind .operator = true) :
    startsStatement (near.map (move f) ++ last' :: far') (t.move f) =
      startsStatement (near ++ last :: far) t := by
  have hmodifier : isModifier ∘ move f = isModifier := funext isModifier_move
  have hnot := isModifier_of_operator hlast
  have hnot' := isModifier_of_operator hlast'
  have hmark {u : Token} (hu : u.hasKind .operator = true) (s : String) : u.isMark s = false :=
    isMark_of_hasKind hu (by decide)
  have htake : (near.map (move f)).takeWhile isModifier =
      (near.takeWhile isModifier).map (move f) := by
    rw [List.takeWhile_map, hmodifier]
  have hdrop : (near.map (move f)).dropWhile isModifier =
      (near.dropWhile isModifier).map (move f) := by
    rw [List.dropWhile_map, hmodifier]
  simp only [startsStatement, takeWhile_isModifier_apart hnot, takeWhile_isModifier_apart hnot',
    htake, getLastD_move, line_move _ hf, List.dropWhile_append, hdrop]
  cases near.dropWhile isModifier with
  | nil =>
    simp [List.dropWhile_cons_of_neg, hnot, hnot', hmark hlast, hmark hlast', hlast, hlast']
  | cons previous rest =>
    simp only [List.map_cons, List.isEmpty_cons, Bool.false_eq_true, if_false, List.cons_append,
      isMark_move, line_move _ hf, hasKind_move, expectsMore_move, text_move]

/-- The moved tokens declare the same names, after the same operator or another. -/
theorem namesFrom_move (hf : Position.KeepsLines f) (hlast : last.hasKind .operator = true)
    (hlast' : last'.hasKind .operator = true) (depth : Nat) :
    namesFrom (near.map (move f) ++ last' :: far') depth (ts.map (move f)) =
      namesFrom (near ++ last :: far) depth ts := by
  induction ts generalizing near depth with
  | nil => rfl
  | cons t ts ih =>
    have hnext := @ih (t :: near) (bracketDepth depth t)
    rw [List.map_cons, List.cons_append, List.cons_append] at hnext
    rw [List.map_cons, namesFrom_cons, namesFrom_cons, isWord_move, namesAt_move hf,
      startsStatement_move hf hlast hlast', bracketDepth_move, hnext]

end Before

end Script

end SymbolAtlas
