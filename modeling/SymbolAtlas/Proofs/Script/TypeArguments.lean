import SymbolAtlas.Proofs.Script.IndependentStatements
import SymbolAtlas.Proofs.Script.Initializer
import SymbolAtlas.Proofs.Script.MovedTokens
import SymbolAtlas.Proofs.Token.GluedMark
import SymbolAtlas.Proofs.Token.WordText

/-! # Type arguments before an equals sign

An alias or a variable may have a list of type arguments right before its equals sign. With a blank
between them, the list is stepped over. Without it the scanner reads the marks that close the list
and the equals sign as one operator, which closes nothing for the readers: the list stays open, so
that the alias is not declared and no variable after the first one is.
-/

namespace SymbolAtlas

namespace Position

theorem keepsLines_leftOn (line : Int) : KeepsLines (leftOn line) where
  line_eq := leftOn_line line
  column_sub p q h := by
    unfold leftOn
    rw [h]
    split
    · simp only
      omega
    · rfl

end Position

namespace Script

open Token

/-! ## Lists of type arguments -/

/-- Whether `n` angle brackets are open after the tokens, if `depth` are before, and at least one
all along. -/
def staysOpen (n depth : Nat) : List Token → Bool
  | [] => depth == n
  | t :: ts => decide (0 < angleDepth depth t) && staysOpen n (angleDepth depth t) ts

section List

variable {n depth angles : Nat} {inner more : List Token}

theorem afterAngles_staysOpen (h : staysOpen n depth inner = true) :
    afterAngles depth (inner ++ more) = afterAngles n more := by
  induction inner generalizing depth with
  | nil =>
    rw [staysOpen, beq_iff_eq] at h
    rw [h, List.nil_append]
  | cons t ts ih =>
    rw [staysOpen, Bool.and_eq_true, decide_eq_true_eq] at h
    have hdepth : (depth : Int) + angleChange t = angleDepth depth t := by
      have := h.1
      rw [angleDepth] at this ⊢
      omega
    rw [List.cons_append, afterAngles, hdepth, if_neg (by omega), ih h.2]

theorem afterVariableType_staysOpen (hbalanced : isBalanced [] depth inner = true)
    (h : staysOpen n angles inner = true) :
    afterVariableType depth angles (inner ++ more) = afterVariableType 0 n more := by
  induction inner generalizing depth angles with
  | nil =>
    rw [staysOpen, beq_iff_eq] at h
    rw [isBalanced, beq_iff_eq] at hbalanced
    rw [h, hbalanced, List.nil_append]
  | cons t ts ih =>
    rw [staysOpen, Bool.and_eq_true, decide_eq_true_eq] at h
    rw [isBalanced_cons] at hbalanced
    have hcloser : ¬ (depth = 0 && t.isCloser : Bool) = true := by
      rw [Bool.and_eq_true, decide_eq_true_eq]
      rintro ⟨hdepth, hclose⟩
      rw [(hbalanced.1 hdepth).1] at hclose
      cases hclose
    have hstop : ¬ (bracketDepth depth t = 0 && angleDepth angles t = 0 &&
        (t.isOperator "=" || t.isMark "," || t.isMark ";") : Bool) = true := by
      simp only [Bool.and_eq_true, decide_eq_true_eq, not_and]
      intro hzero
      omega
    rw [List.cons_append, afterVariableType_cons, if_neg hcloser, if_neg hstop,
      ih hbalanced.2 h.2]

end List

section Mark

variable {mark : String} {p : Position} {inner more : List Token} {name less equals : Token}

theorem angleChange_mark (h : mark ∈ Lexeme.closingMarks) (p : Position) :
    angleChange (.plain .operator p mark) = -mark.length := by
  rcases Lexeme.closingMarks_cases h with rfl | rfl | rfl <;> rfl

/-- Read as one operator with the equals sign, the marks close nothing. -/
theorem angleChange_glued (h : mark ∈ Lexeme.closingMarks) (p : Position) :
    angleChange (.plain .operator p (mark ++ "=")) = 0 := by
  rcases Lexeme.closingMarks_cases h with rfl | rfl | rfl <;> rfl

theorem isOperator_equals_mark (h : mark ∈ Lexeme.closingMarks) (p : Position) :
    (Token.plain .operator p mark).isOperator "=" = false := by
  rcases Lexeme.closingMarks_cases h with rfl | rfl | rfl <;> rfl

theorem isOperator_equals_glued (h : mark ∈ Lexeme.closingMarks) (p : Position) :
    (Token.plain .operator p (mark ++ "=")).isOperator "=" = false := by
  rcases Lexeme.closingMarks_cases h with rfl | rfl | rfl <;> rfl

theorem length_mark_pos (h : mark ∈ Lexeme.closingMarks) : 0 < mark.length := by
  rcases Lexeme.closingMarks_cases h with rfl | rfl | rfl <;> decide

theorem angleChange_less (hless : less.isOperator "<" = true) : angleChange less = 1 := by
  rw [angleChange, if_pos hless]

theorem afterAngles_less (hless : less.isOperator "<" = true) (ts : List Token) :
    afterAngles 0 (less :: ts) = afterAngles (1 : Nat) ts := by
  rw [afterAngles, angleChange_less hless]
  rfl

/-- The marks close the list. -/
theorem afterAngles_closed (hless : less.isOperator "<" = true) (h : mark ∈ Lexeme.closingMarks)
    (hinner : staysOpen mark.length 1 inner = true) :
    afterAngles 0 (less :: (inner ++ .plain .operator p mark :: more)) = more := by
  rw [afterAngles_less hless, afterAngles_staysOpen hinner, afterAngles, angleChange_mark h,
    if_pos (by omega)]

/-- Glued to the equals sign they leave it open. -/
theorem afterAngles_glued (hless : less.isOperator "<" = true) (h : mark ∈ Lexeme.closingMarks)
    (hinner : staysOpen mark.length 1 inner = true) :
    afterAngles 0 (less :: (inner ++ .plain .operator p (mark ++ "=") :: more)) =
      afterAngles mark.length more := by
  have hpos := length_mark_pos h
  rw [afterAngles_less hless, afterAngles_staysOpen hinner, afterAngles, angleChange_glued h,
    Int.add_zero, if_neg (by omega)]

/-- An annotation goes on over a name and an opening angle bracket. -/
theorem afterVariableType_name (hname : name.hasKind .identifier = true)
    (hless : less.isOperator "<" = true) (ts : List Token) :
    afterVariableType 0 0 (name :: less :: ts) = afterVariableType 0 1 ts := by
  obtain ⟨p, s, rfl⟩ := eq_of_hasKind hname
  obtain ⟨q, rfl⟩ := eq_of_is hless
  simp [afterVariableType, angleDepth, angleChange]

/-- With the marks closed, the annotation ends at the equals sign. -/
theorem afterVariableType_closed (hname : name.hasKind .identifier = true)
    (hless : less.isOperator "<" = true) (h : mark ∈ Lexeme.closingMarks)
    (hbalanced : isBalanced [] 0 inner = true) (hinner : staysOpen mark.length 1 inner = true)
    (hequals : equals.isOperator "=" = true) :
    afterVariableType 0 0 (name :: less :: (inner ++ .plain .operator p mark :: equals :: more)) =
      equals :: more := by
  have hdepth : angleDepth mark.length (.plain .operator p mark) = 0 := by
    rw [angleDepth, angleChange_mark h]
    omega
  obtain ⟨q, rfl⟩ := eq_of_is hequals
  rw [afterVariableType_name hname hless, afterVariableType_staysOpen hbalanced hinner,
    afterVariableType_cons, hdepth, isOperator_equals_mark h]
  simp [bracketDepth, afterVariableType, angleDepth, angleChange]

/-- Glued, it is read on with the angle brackets open. -/
theorem afterVariableType_glued (hname : name.hasKind .identifier = true)
    (hless : less.isOperator "<" = true) (h : mark ∈ Lexeme.closingMarks)
    (hbalanced : isBalanced [] 0 inner = true) (hinner : staysOpen mark.length 1 inner = true) :
    afterVariableType 0 0
        (name :: less :: (inner ++ .plain .operator p (mark ++ "=") :: more)) =
      afterVariableType 0 mark.length more := by
  have hdepth : angleDepth mark.length (.plain .operator p (mark ++ "=")) = mark.length := by
    rw [angleDepth, angleChange_glued h]
    omega
  rw [afterVariableType_name hname hless, afterVariableType_staysOpen hbalanced hinner,
    afterVariableType_cons, hdepth, isOperator_equals_glued h]
  simp [bracketDepth]

end Mark

/-! ## Variables -/

section Variable

variable {v colon : Token} {us : List Token}

/-- The number of steps makes no difference as long as there are enough of them. -/
theorem declaratorNames_of_lt {steps steps' : Nat} {ts : List Token} (h : ts.length < steps)
    (h' : ts.length < steps') : declaratorNames steps ts = declaratorNames steps' ts := by
  induction steps generalizing ts steps' with
  | zero => exact absurd h (Nat.not_lt_zero _)
  | succ steps ih =>
    obtain ⟨steps', rfl⟩ := Nat.exists_eq_succ_of_ne_zero (Nat.ne_zero_of_lt h')
    rw [declaratorNames, declaratorNames]
    cases htarget : target? (2 * ts.length + 1) ts with
    | none => rfl
    | some split =>
      obtain ⟨names, rest⟩ := split
      have hle := (target_suffix htarget).length_le
      have hafter := (walksForward_afterDeclarator.suffix rest).length_le
      cases hcomma : afterDeclarator rest with
      | nil => simp only [hcomma]
      | cons comma more =>
        rw [hcomma, List.length_cons] at hafter
        simp only [hcomma]
        rw [@ih steps' more (by omega) (by omega)]

/-- The names of the variables after a comma, if one stands here. -/
def namesAfterComma (ts : List Token) : List Token :=
  if ts.head?.any (·.isMark ",") then variableNames ts.tail else []

theorem variableNames_identifier (hv : v.hasKind .identifier = true) (us : List Token) :
    variableNames (v :: us) = v :: namesAfterComma (afterDeclarator us) := by
  have hafter := (walksForward_afterDeclarator.suffix us).length_le
  rw [variableNames, declaratorNames]
  simp only [target_identifier hv]
  cases hcomma : afterDeclarator us with
  | nil => rfl
  | cons comma more =>
    rw [hcomma, List.length_cons] at hafter
    rw [namesAfterComma, List.head?_cons, Option.any_some, List.tail_cons]
    simp only
    split
    · rw [List.singleton_append, variableNames,
        declaratorNames_of_lt (by rw [List.length_cons]; omega) (Nat.lt_succ_self _)]
    · rfl

theorem afterDeclarator_annotation (hcolon : colon.isMark ":" = true) (us : List Token) :
    afterDeclarator (colon :: us) =
      stepOver (·.isOperator "=") (afterInitializer none 0 0) (afterVariableType 0 0 us) := by
  obtain ⟨p, rfl⟩ := eq_of_isMark hcolon
  have hmark : stepOver (·.isOperator "!") id (.plain .punctuation p ":" :: us) =
      .plain .punctuation p ":" :: us := stepOver_of_not rfl id
  rw [afterDeclarator_eq, hmark]
  rfl

theorem namesAfterComma_move {f : Position → Position} (hf : Position.KeepsLines f)
    (ts : List Token) : namesAfterComma (ts.map (move f)) = (namesAfterComma ts).map (move f) := by
  rw [namesAfterComma, any_head?_move (fun t => isMark_move f t _), ← List.map_tail,
    variableNames_move hf, namesAfterComma]
  split <;> rfl

end Variable

/-! ## Aliases and variables with type arguments -/

/-- A statement with the keyword `keyword` whose list of type arguments is closed by `n` marks right
before its equals sign. The tokens `opening` stand between the keyword and the marks, and the tokens
`rest` after the equals sign. The statement names the tokens `closed`, or the tokens `opened` if the
`n` marks are not read as such. -/
inductive TypedStatement (before : List Token) (keyword : Token) (n : Nat) :
    (opening rest closed opened : List Token) → Prop
  /-- An alias `type name<inner> = rest`. Left open, the list is closed by the marks of what
  follows, if by any, and again an equals sign must come next. -/
  | typeAlias {name less : Token} {inner rest : List Token}
      (hkeyword : keyword.isWordOf "type" = true)
      (hstarts : startsStatement before.reverse keyword = true)
      (hless : less.isOperator "<" = true) (hinner : staysOpen n 1 inner = true) :
      TypedStatement before keyword n (name :: less :: inner) rest [name]
        (if (afterAngles n rest).head?.any (·.isOperator "=") then [name] else [])
  /-- Variables `let v: name<inner> = value, more`. Left open, the annotation is read on. -/
  | annotated {v colon name less comma : Token} {inner value more : List Token}
      (hkeyword : keyword.isWord = true ∧ keyword.text ∈ ["const", "let", "var"])
      (hv : v.hasKind .identifier = true) (hcolon : colon.isMark ":" = true)
      (hname : name.hasKind .identifier = true) (hless : less.isOperator "<" = true)
      (hbalanced : isBalanced [] 0 inner = true) (hinner : staysOpen n 1 inner = true)
      (hvalue : isBalanced [",", ";"] 0 value = true)
      (hplain : ∀ t ∈ value, t.isOperator "<" = false) (hcomma : comma.isMark "," = true) :
      TypedStatement before keyword n (v :: colon :: name :: less :: inner)
        (value ++ comma :: more)
        (v :: if endsEarly value then [] else variableNames more)
        (v :: namesAfterComma (stepOver (·.isOperator "=") (afterInitializer none 0 0)
          (afterVariableType 0 n (value ++ comma :: more))))

theorem declarableNames_cons (t : Token) (ts : List Token) :
    declarableNames (t :: ts) = declarableNames [t] ++ declarableNames ts := by
  rw [declarableNames, ← List.singleton_append, List.filter_append, List.map_append]
  rfl

section Statement

variable {before opening rest closed opened : List Token} {keyword name less v equals : Token}
  {mark : String} {p : Position} {f : Position → Position}

theorem headName_cons (name : Token) (ts : List Token) :
    headName (name :: ts) = declarableNames [name] := by
  rw [headName, List.head?_cons, Option.filter_some, declarableNames, List.filter_cons]
  split <;> rfl

theorem definesAlias_less (hless : less.isOperator "<" = true) (ts : List Token) :
    definesAlias (less :: ts) = (afterAngles 0 (less :: ts)).head?.any (·.isOperator "=") := by
  rw [definesAlias_eq, afterTypeParameters, if_pos hless]

theorem namesAt_alias (hkeyword : keyword.isWordOf "type" = true)
    (hless : less.isOperator "<" = true) (ts : List Token) :
    namesAt true keyword (name :: less :: ts) =
      declarableNames (if (afterAngles 0 (less :: ts)).head?.any (·.isOperator "=") then [name]
        else []) := by
  rw [isWordOf, Bool.and_eq_true, beq_iff_eq] at hkeyword
  simp only [namesAt, hkeyword.2, List.tail_cons, definesAlias_less hless, Bool.true_and,
    headName_cons]
  split <;> rfl

/-- No identifier of a source is the reserved word that makes a constant an enumeration. -/
theorem ne_enum_of_mem {source : String} {t : Token} (ht : t ∈ tokenize source)
    (hkind : t.hasKind .identifier = true) : t.text ≠ "enum" := by
  intro htext
  have hreserved := Layer.isReserved_eq_false .outer ht hkind
  rw [htext] at hreserved
  cases hreserved

theorem namesAt_variables (hkeyword : keyword.text ∈ ["const", "let", "var"])
    (hv : v.text ≠ "enum") (starts : Bool) (ts : List Token) :
    namesAt starts keyword (v :: ts) = declarableNames (variableNames (v :: ts)) := by
  have hnot : v.isWordOf "enum" = false := by
    rw [isWordOf, beq_eq_false_iff_ne.mpr hv, Bool.and_false]
  simp only [List.mem_cons, List.not_mem_nil, or_false] at hkeyword
  rcases hkeyword with h | h | h <;>
    simp [namesAt, h, hnot, declarableNames]

namespace TypedStatement

/-- With the list closed, the statement declares its names. -/
theorem namesAt_closed (h : TypedStatement before keyword mark.length opening rest closed opened)
    (hmark : mark ∈ Lexeme.closingMarks) (hequals : equals.isOperator "=" = true)
    (henum : ∀ t ∈ opening, t.hasKind .identifier = true → t.text ≠ "enum") :
    namesAt (startsStatement before.reverse keyword) keyword
        (opening ++ .plain .operator p mark :: equals :: rest) = declarableNames closed := by
  cases h with
  | typeAlias hkeyword hstarts hless hinner =>
    rw [hstarts, List.cons_append, List.cons_append, namesAt_alias hkeyword hless,
      afterAngles_closed hless hmark hinner, List.head?_cons, Option.any_some, if_pos hequals]
  | @annotated v colon name less comma inner value more hkeyword hv hcolon hname hless hbalanced
      hinner hvalue hplain hcomma =>
    have hend : namesAfterComma (afterInitializer none 0 0 (value ++ comma :: more)) =
        if endsEarly value then [] else variableNames more := by
      cases hearly : endsEarly value with
      | true =>
        rw [namesAfterComma, afterInitializer_of_endsEarly hvalue hplain (.inl hcomma) hearly]
        rfl
      | false =>
        rw [namesAfterComma, afterInitializer_of_not_endsEarly hvalue hplain (.inl hcomma) hearly,
          List.head?_cons, Option.any_some, if_pos hcomma]
        rfl
    simp only [List.cons_append]
    rw [namesAt_variables hkeyword.2 (henum v List.mem_cons_self hv), variableNames_identifier hv,
      afterDeclarator_annotation hcolon,
      afterVariableType_closed hname hless hmark hbalanced hinner hequals, stepOver, if_pos hequals,
      hend]

/-- With the list left open, it declares what is found reading on. -/
theorem namesAt_opened (h : TypedStatement before keyword mark.length opening rest closed opened)
    (hmark : mark ∈ Lexeme.closingMarks) (hf : Position.KeepsLines f)
    (henum : ∀ t ∈ opening, t.hasKind .identifier = true → t.text ≠ "enum") :
    namesAt (startsStatement before.reverse keyword) keyword
        (opening ++ .plain .operator p (mark ++ "=") :: rest.map (move f)) =
      declarableNames opened := by
  cases h with
  | typeAlias hkeyword hstarts hless hinner =>
    rw [hstarts, List.cons_append, List.cons_append, namesAt_alias hkeyword hless,
      afterAngles_glued hless hmark hinner, equivariant_afterAngles,
      any_head?_move fun t => isOperator_move f t _]
  | @annotated v colon name less comma inner value more hkeyword hv hcolon hname hless hbalanced
      hinner hvalue hplain hcomma =>
    have hrest : stepOver (·.isOperator "=") (afterInitializer none 0 0)
        (afterVariableType 0 mark.length ((value ++ comma :: more).map (move f))) =
        (stepOver (·.isOperator "=") (afterInitializer none 0 0)
          (afterVariableType 0 mark.length (value ++ comma :: more))).map (move f) := by
      rw [equivariant_afterVariableType]
      exact (equivariant_afterInitializer hf).stepOver (fun t => isOperator_move f t _) _
    simp only [List.cons_append]
    rw [namesAt_variables hkeyword.2 (henum v List.mem_cons_self hv), variableNames_identifier hv,
      afterDeclarator_annotation hcolon, afterVariableType_glued hname hless hmark hbalanced hinner,
      hrest, namesAfterComma_move hf, declarableNames_cons, declarableNames_move,
      ← declarableNames_cons]

theorem isWord (h : TypedStatement before keyword mark.length opening rest closed opened) :
    keyword.isWord = true := by
  cases h with
  | typeAlias hkeyword => exact (Bool.and_eq_true_iff.mp hkeyword).1
  | annotated hkeyword => exact hkeyword.1

end TypedStatement

/-- An operator declares nothing and is no bracket. -/
theorem namesFrom_operator {t : Token} (h : t.hasKind .operator = true) (before : List Token)
    (depth : Nat) (ts : List Token) :
    namesFrom before depth (t :: ts) = namesFrom (t :: before) depth ts := by
  have hword : t.isWord = false := isWord_of_hasKind h (by decide) (by decide)
  have hdepth : bracketDepth depth t = depth := by
    simp [bracketDepth, isOpener_of_hasKind h (by decide), isCloser_of_hasKind h (by decide)]
  rw [namesFrom_cons, hword, hdepth, Bool.and_false, if_neg Bool.false_ne_true, List.nil_append]

/-- Whether two operators end them or one, complete tokens and what follows declare the same. -/
theorem namesFrom_glued {close : Token} (hopening : IsComplete opening)
    (hf : Position.KeepsLines f) (hclose : close.hasKind .operator = true)
    (hequals : equals.hasKind .operator = true) (before rest : List Token) (p : Position)
    (s : String) :
    namesFrom before 0 (opening ++ .plain .operator p s :: rest.map (move f)) =
      namesFrom before 0 (opening ++ close :: equals :: rest) := by
  have hglued : (plain .operator p s).hasKind .operator = true := rfl
  rw [hopening.namesFrom_append, hopening.namesFrom_append, namesFrom_operator hglued,
    namesFrom_operator hclose, namesFrom_operator hequals]
  congr 1
  exact @namesFrom_move f [] _ _ _ _ _ hf hequals hglued 0

end Statement

/-! ## With the blank and without it -/

/-- A statement has a list of type arguments, a blank and an equals sign. With the blank it declares
the names that stand there. Without it, it declares what is found reading on with the list still
open, as if the equals sign were no sign at all. What the other words of the source declare is the
same. -/
theorem declares_unspaced {spaced : String} {before opening rest closed opened : List Token}
    {keyword close equals : Token} {left right : List Char}
    (htokens : tokenize spaced = before ++ keyword :: (opening ++ close :: equals :: rest))
    (hbefore : IsComplete before) (hopening : IsComplete opening)
    (hstatement : TypedStatement before keyword close.text.length opening rest closed opened)
    (hclose : close.hasKind .operator = true) (hmark : close.text ∈ Lexeme.closingMarks)
    (hequals : equals.isOperator "=" = true)
    (hstands : StandsBetween spaced close left (' ' :: '=' :: right)) (name : String) :
    let tight := String.ofList (left ++ (close.text.toList ++ '=' :: right))
    let others := namesFrom [] 0 before ++
      namesFrom (keyword :: before.reverse) 0 (opening ++ close :: equals :: rest)
    ((declarations (tokenize spaced)).declares name = true ↔
      name ∈ others ∨ name ∈ declarableNames closed) ∧
      ((declarations (tokenize tight)).declares name = true ↔
        name ∈ others ∨ name ∈ declarableNames opened) := by
  intro tight others
  have hnames := hbefore.namesFrom_word hstatement.isWord
  have hkind : equals.hasKind .operator = true := (Bool.and_eq_true_iff.mp hequals).1
  have henum : ∀ t ∈ opening, t.hasKind .identifier = true → t.text ≠ "enum" :=
    fun t ht => ne_enum_of_mem (by rw [htokens]; simp [ht])
  constructor
  · obtain ⟨p, mark, rfl⟩ := eq_of_hasKind hclose
    have hstatement : TypedStatement before keyword mark.length opening rest closed opened :=
      hstatement
    rw [declares_declarations_iff, htokens, hnames, hstatement.namesAt_closed hmark hequals henum]
    simp only [others, List.mem_append, or_comm, or_left_comm]
  · have htight : tokenize tight = before ++ keyword :: (opening ++
        .plain .operator close.position (close.text ++ "=") ::
          rest.map (move (Position.leftOn close.line))) := by
      have hfront : tokenize spaced =
          (before ++ keyword :: opening) ++ close :: equals :: rest := by
        rw [htokens, List.append_assoc, List.cons_append]
      rw [tokenize_unspaced hfront hclose hmark hequals hstands, List.append_assoc,
        List.cons_append]
    have hlines := Position.keepsLines_leftOn close.line
    rw [declares_declarations_iff, htight, hnames, hstatement.namesAt_opened hmark hlines henum,
      namesFrom_glued hopening hlines hclose hkind]
    simp only [others, List.mem_append, or_comm, or_left_comm]

/-- The marks of two lists at once, before an alias; and a variable after the one with the list. -/
theorem declares_unspaced_nested :
    ((declarations (tokenize "type N<A<B>> = R;")).declares "N" = true ∧
      ¬ (declarations (tokenize "type N<A<B>>= R;")).declares "N" = true) ∧
    (declarations (tokenize "let v: N<A> = E, w = F;")).declares "w" = true ∧
      ¬ (declarations (tokenize "let v: N<A>= E, w = F;")).declares "w" = true := by
  constructor
  · have halias := @declares_unspaced "type N<A<B>> = R;" []
      [nameAt ⟨1, 6⟩ "N", .plain .operator ⟨1, 7⟩ "<", nameAt ⟨1, 8⟩ "A",
        .plain .operator ⟨1, 9⟩ "<", nameAt ⟨1, 10⟩ "B"]
      [nameAt ⟨1, 16⟩ "R", .plain .punctuation ⟨1, 17⟩ ";"] _ _ (nameAt ⟨1, 1⟩ "type")
      (.plain .operator ⟨1, 11⟩ ">>") (.plain .operator ⟨1, 14⟩ "=") "type N<A<B".toList
      " R;".toList rfl ⟨rfl, rfl, by simp⟩
      ⟨by decide +kernel, by decide +kernel, by decide +kernel⟩
      (.typeAlias (by decide +kernel) (by decide +kernel) rfl (by decide +kernel)) rfl (by decide)
      rfl ⟨rfl, by decide +kernel⟩ "N"
    exact ⟨halias.1.mpr (.inr (by decide +kernel)), mt halias.2.mp (by decide +kernel)⟩
  · have hlet := @declares_unspaced "let v: N<A> = E, w = F;" []
      [nameAt ⟨1, 5⟩ "v", .plain .punctuation ⟨1, 6⟩ ":", nameAt ⟨1, 8⟩ "N",
        .plain .operator ⟨1, 9⟩ "<", nameAt ⟨1, 10⟩ "A"]
      ([nameAt ⟨1, 15⟩ "E"] ++ .plain .punctuation ⟨1, 16⟩ "," ::
        [nameAt ⟨1, 18⟩ "w", .plain .operator ⟨1, 20⟩ "=", nameAt ⟨1, 22⟩ "F",
          .plain .punctuation ⟨1, 23⟩ ";"]) _ _ (nameAt ⟨1, 1⟩ "let")
      (.plain .operator ⟨1, 11⟩ ">") (.plain .operator ⟨1, 13⟩ "=") "let v: N<A".toList
      " E, w = F;".toList rfl ⟨rfl, rfl, by simp⟩
      ⟨by decide +kernel, by decide +kernel, by decide +kernel⟩
      (.annotated (by decide +kernel) (by decide +kernel) rfl (by decide +kernel) rfl
        (by decide +kernel) (by decide +kernel) (by decide +kernel) (by decide +kernel) rfl) rfl
      (by decide) rfl ⟨rfl, by decide +kernel⟩ "w"
    exact ⟨hlet.1.mpr (.inr (by decide +kernel)), mt hlet.2.mp (by decide +kernel)⟩

/-- The blank decides whether an alias is declared, and whether a variable after the first is. -/
theorem not_declares_unspaced :
    (∃ name, (declarations (tokenize "type N<A>= R;")).declares name ≠
      (declarations (tokenize "type N<A> = R;")).declares name) ∧
    ∃ name, (declarations (tokenize "let v: N<A>= E, w = F;")).declares name ≠
      (declarations (tokenize "let v: N<A> = E, w = F;")).declares name :=
  ⟨⟨"N", by decide +kernel⟩, "w", by decide +kernel⟩

end Script

end SymbolAtlas
