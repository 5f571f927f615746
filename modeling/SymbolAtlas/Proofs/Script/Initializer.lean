import Mathlib.Data.List.Chain
import SymbolAtlas.Proofs.Declaration
import SymbolAtlas.Proofs.Script.Balance
import SymbolAtlas.Proofs.Script.IndependentStatements

/-! # Variables with initialisers

A variable statement binds the names of its declarators in turn, through the first of them in whose
initialiser a line break ends the statement. Which line breaks do is decided by the two tokens
around them: next to an operator, a dot or a comma no line break ends it, nor does one after a
colon. But one before a colon does, so the branches of a conditional that begin their lines hide
all the declarators after them.
-/

namespace SymbolAtlas.Script

open Token

/-! ## Statements -/

/-- A declarator `name = value` and the place of the comma or semicolon after it. The value is
balanced, has no comma or semicolon outside its brackets, and no `<`. -/
structure Declarator where
  place : Position
  name : String
  equals : Position
  value : List Token
  stop : Position
  notReserved : Vocabulary.isReserved name = false
  notBuiltin : Vocabulary.isBuiltin name = false
  balanced : isBalanced [",", ";"] 0 value = true
  notLess : ∀ t ∈ value, t.isOperator "<" = false

namespace Declarator

def nameToken (d : Declarator) : Token := .plain .identifier d.place d.name

def tokens (d : Declarator) (mark : String) : List Token :=
  d.nameToken :: .plain .operator d.equals "=" :: (d.value ++ [.plain .punctuation d.stop mark])

end Declarator

/-- The tokens of a variable statement after its keyword: declarators with commas between them, and
a semicolon. -/
def statementTokens : List Declarator → List Token
  | [] => []
  | [d] => d.tokens ";"
  | d :: e :: ds => d.tokens "," ++ statementTokens (e :: ds)

/-- The names of the declarators through the first whose value ends early. -/
def namesThroughEnd : List Declarator → List Token
  | [] => []
  | d :: ds => d.nameToken :: if endsEarly d.value then [] else namesThroughEnd ds

theorem afterDeclarator_equals (p : Position) (ts : List Token) :
    afterDeclarator (.plain .operator p "=" :: ts) = afterInitializer none 0 0 ts := by
  simp [afterDeclarator]

theorem declaratorNames_tokens (d : Declarator) (mark : String) (steps : Nat)
    (rest : List Token) :
    declaratorNames (steps + 1) (d.tokens mark ++ rest) =
      match afterInitializer none 0 0 (d.value ++ .plain .punctuation d.stop mark :: rest) with
      | comma :: rest =>
        if comma.isMark "," then d.nameToken :: declaratorNames steps rest else [d.nameToken]
      | [] => [d.nameToken] := by
  have htarget (n : Nat) : target? (n + 1) (d.tokens mark ++ rest) =
      some ([d.nameToken], .plain .operator d.equals "=" ::
        (d.value ++ .plain .punctuation d.stop mark :: rest)) := by
    rw [Declarator.tokens, List.cons_append, target_cons]
    simp [Declarator.nameToken]
  rw [declaratorNames, htarget]
  simp only [afterDeclarator_equals]
  rfl

theorem Declarator.isMark_stop (d : Declarator) {mark : String} (h : mark = "," ∨ mark = ";") :
    (Token.plain .punctuation d.stop mark).isMark "," = true ∨
      (Token.plain .punctuation d.stop mark).isMark ";" = true := by
  rcases h with rfl | rfl <;> simp

/-- A value that ends early leaves no comma after which another declarator would be read. -/
theorem declaratorNames_of_endsEarly {d : Declarator} (h : endsEarly d.value = true)
    {mark : String} (hmark : mark = "," ∨ mark = ";") (steps : Nat) (rest : List Token) :
    declaratorNames (steps + 1) (d.tokens mark ++ rest) = [d.nameToken] := by
  have hleft := @afterInitializer_of_endsEarly _ d.value rest d.balanced d.notLess
    (d.isMark_stop hmark) h
  rw [declaratorNames_tokens]
  cases hafter : afterInitializer none 0 0 (d.value ++ .plain .punctuation d.stop mark :: rest) with
  | nil => rfl
  | cons comma after =>
    rw [hafter, List.head?_cons, Option.any_some] at hleft
    simp only [hleft, Bool.false_eq_true, if_false]

/-- Any other value is read up to the mark after it. -/
theorem declaratorNames_of_not_endsEarly {d : Declarator} (h : endsEarly d.value = false)
    {mark : String} (hmark : mark = "," ∨ mark = ";") (steps : Nat) (rest : List Token) :
    declaratorNames (steps + 1) (d.tokens mark ++ rest) =
      d.nameToken :: if mark = "," then declaratorNames steps rest else [] := by
  rw [declaratorNames_tokens,
    afterInitializer_of_not_endsEarly d.balanced d.notLess (d.isMark_stop hmark) h]
  rcases hmark with rfl | rfl <;> simp

theorem declaratorNames_statementTokens {ds : List Declarator} {steps : Nat}
    (hsteps : ds.length ≤ steps) (hne : ds ≠ []) (more : List Token) :
    declaratorNames steps (statementTokens ds ++ more) = namesThroughEnd ds := by
  induction ds generalizing steps with
  | nil => exact absurd rfl hne
  | cons d ds ih =>
    obtain ⟨steps, rfl⟩ := Nat.exists_eq_succ_of_ne_zero (Nat.ne_zero_of_lt hsteps)
    have hsteps := Nat.le_of_succ_le_succ hsteps
    cases ds with
    | nil =>
      rw [statementTokens, namesThroughEnd]
      cases hends : endsEarly d.value with
      | true => rw [declaratorNames_of_endsEarly hends (.inr rfl), if_pos rfl]
      | false =>
        rw [declaratorNames_of_not_endsEarly hends (.inr rfl), if_neg (by decide),
          if_neg Bool.false_ne_true, namesThroughEnd]
    | cons e ds =>
      rw [statementTokens, namesThroughEnd, List.append_assoc]
      cases hends : endsEarly d.value with
      | true => rw [declaratorNames_of_endsEarly hends (.inl rfl), if_pos rfl]
      | false =>
        rw [declaratorNames_of_not_endsEarly hends (.inl rfl), if_pos rfl,
          if_neg Bool.false_ne_true, ih hsteps (List.cons_ne_nil e ds)]

theorem length_le_statementTokens (ds : List Declarator) :
    ds.length ≤ (statementTokens ds).length := by
  induction ds with
  | nil => exact Nat.zero_le _
  | cons d ds ih =>
    rw [List.length_cons]
    cases ds with
    | nil => simp [statementTokens, Declarator.tokens]
    | cons e ds =>
      have htokens : 1 ≤ (d.tokens ",").length := by simp [Declarator.tokens]
      rw [statementTokens, List.length_append, Nat.add_comm]
      exact Nat.add_le_add htokens ih

/-- A variable statement binds the names of its declarators through the first whose value ends
early, whatever follows. -/
theorem variableNames_statementTokens {ds : List Declarator} (hne : ds ≠ []) (more : List Token) :
    variableNames (statementTokens ds ++ more) = namesThroughEnd ds := by
  have hlength := length_le_statementTokens ds
  exact declaratorNames_statementTokens (by rw [List.length_append]; omega) hne more

theorem namesThroughEnd_eq_iff {ds : List Declarator} :
    namesThroughEnd ds = ds.map Declarator.nameToken ↔
      ∀ d ∈ ds.dropLast, endsEarly d.value = false := by
  induction ds with
  | nil => simp [namesThroughEnd]
  | cons d ds ih =>
    rw [namesThroughEnd, List.map_cons, List.cons_inj_right]
    cases ds with
    | nil => cases endsEarly d.value <;> simp [namesThroughEnd]
    | cons e ds =>
      rw [List.dropLast_cons_cons, List.forall_mem_cons, ← ih]
      cases hends : endsEarly d.value with
      | true => simp
      | false => simp

/-! ## Layouts -/

/-- A token next to which an expression may be broken: an operator, a colon, a dot or a comma. -/
def isJoint (t : Token) : Bool :=
  t.hasKind .operator || t.isMark ":" || t.isMark "." || t.isMark ","

/-- Outside the brackets of balanced tokens no line break stands before a mark that they are
without. -/
theorem isMark_of_mem_outerBreaks {stops : List String} {depth : Nat} {p : Token}
    {ts : List Token} {b : Token × Token} {s : String}
    (h : isBalanced stops (bracketDepth depth p) ts = true)
    (hb : b ∈ outerBreaks depth (p :: ts)) (hs : s ∈ stops) : b.2.isMark s = false := by
  induction ts generalizing depth p with
  | nil => cases hb
  | cons t ts ih =>
    rw [isBalanced_cons] at h
    rw [outerBreaks, List.mem_append] at hb
    rcases hb with hb | hb
    · split at hb
      · next hbreak =>
        rw [List.mem_singleton.mp hb]
        exact (h.1 hbreak.1).2 s hs
      · cases hb
    · exact ih h.2 hb

/-- A line break next to a joint does not end the statement, unless the joint is a colon and stands
after it, or a comma. -/
theorem breaksBetween_of_isJoint {p t : Token} (hcomma : t.isMark "," = false)
    (h : isJoint p = true ∨ isJoint t = true ∧ t.isMark ":" = false) :
    breaksBetween p t = false := by
  have hmore {s : String} (hs : s ∈ ["(", "[", ",", ":", ".", "?.", "..."])
      (hp : p.isMark s = true) : expectsMore p = true := by
    obtain ⟨q, rfl⟩ := eq_of_isMark hp
    simpa [expectsMore, text] using hs
  simp only [isJoint, Bool.or_eq_true] at h
  rw [breaksBetween, Bool.not_eq_false']
  rcases h with (((hp | hp) | hp) | hp) | ⟨((ht | ht) | ht) | ht, hcolon⟩
  · rw [hp]
    rfl
  · rw [hmore (by decide) hp]
    simp
  · rw [hmore (by decide) hp]
    simp
  · rw [hmore (by decide) hp]
    simp
  · rw [ht]
    simp
  · rw [ht] at hcolon
    cases hcolon
  · rw [ht]
    simp
  · rw [ht] at hcomma
    cases hcomma

/-- A value whose line breaks outside its brackets stand next to joints, none of them before a
colon, is read to its end. -/
theorem Declarator.not_endsEarly {d : Declarator} (h : ∀ b ∈ outerBreaks 0 d.value,
    isJoint b.1 = true ∨ isJoint b.2 = true ∧ b.2.isMark ":" = false) :
    endsEarly d.value = false := by
  rw [endsEarly, List.any_eq_false]
  intro b hb
  rw [Bool.not_eq_true]
  have hcomma : b.2.isMark "," = false := by
    have hbalanced := d.balanced
    cases hvalue : d.value with
    | nil =>
      rw [hvalue] at hb
      cases hb
    | cons p ts =>
      rw [hvalue] at hb hbalanced
      exact isMark_of_mem_outerBreaks (isBalanced_cons.mp hbalanced).2 hb List.mem_cons_self
  exact breaksBetween_of_isJoint hcomma (h b hb)

/-! ## Declared names -/

/-- What a word outside every bracket declares is declared. -/
theorem mem_topLevelFrom {before front rest : List Token} {t : Token} {depth : Nat}
    {d : Declaration} (hdepth : depthAfter depth front = 0) (hword : t.isWord = true)
    (h : d ∈ declarationsAt (front.reverse ++ before) t rest) :
    d ∈ topLevelFrom before depth (front ++ t :: rest) := by
  induction front generalizing before depth with
  | nil =>
    obtain rfl : depth = 0 := hdepth
    rw [List.nil_append, topLevelFrom_cons, hword]
    exact List.mem_append_left _ h
  | cons u front ih =>
    rw [List.cons_append, topLevelFrom_cons]
    apply List.mem_append_right
    apply ih hdepth
    rwa [List.reverse_cons, List.append_assoc, List.singleton_append] at h

theorem Declarator.isDeclarable_nameToken (d : Declarator) : isDeclarable d.nameToken = true := by
  rw [isDeclarable, nameToken, hasKind_plain, Token.text, d.notBuiltin]
  rfl

theorem head_statementTokens {ds : List Declarator} (hne : ds ≠ []) (more : List Token) :
    (statementTokens ds ++ more).head?.any (·.isWordOf "enum") = false := by
  obtain ⟨d, ds, rfl⟩ := List.exists_cons_of_ne_nil hne
  have henum : d.name ≠ "enum" := by
    intro h
    have hreserved := d.notReserved
    rw [h] at hreserved
    cases hreserved
  cases ds <;> simp [statementTokens, Declarator.tokens, Declarator.nameToken, henum]

/-- A variable statement binds the names of all its declarators exactly if no line break outside
the brackets of a value but the last ends the statement. It declares them all, wherever it stands
outside every bracket, if such line breaks stand next to operators, colons, dots and commas only,
and none directly before a colon unless also after one of these. A token that runs over several
lines counts where it begins. -/
theorem declares_statementTokens (front more : List Token) (hfront : depthAfter 0 front = 0)
    {keyword : String} (hkeyword : keyword ∈ ["const", "let", "var"]) (place : Position)
    (ds : List Declarator) (hne : ds ≠ []) :
    (variableNames (statementTokens ds ++ more) = ds.map Declarator.nameToken ↔
        ∀ d ∈ ds.dropLast, ∀ b ∈ outerBreaks 0 d.value, breaksBetween b.1 b.2 = false) ∧
      ((∀ d ∈ ds.dropLast, ∀ b ∈ outerBreaks 0 d.value,
          isJoint b.1 = true ∨ isJoint b.2 = true ∧ b.2.isMark ":" = false) →
        ∀ d ∈ ds, (declarations (front ++ .plain .keyword place keyword ::
          (statementTokens ds ++ more))).declares d.name = true) := by
  have hnames := variableNames_statementTokens hne more
  constructor
  · rw [hnames, namesThroughEnd_eq_iff]
    simp [endsEarly]
  · intro hlayout d hd
    have hall : variableNames (statementTokens ds ++ more) = ds.map Declarator.nameToken := by
      rw [hnames, namesThroughEnd_eq_iff]
      exact fun d hd => d.not_endsEarly (hlayout d hd)
    have hfound : declarationOf .value d.nameToken keyword (isExportedAfter front.reverse) ∈
        declarationsAt front.reverse (.plain .keyword place keyword)
          (statementTokens ds ++ more) := by
      rw [declarationsAt_variable (t := .plain .keyword place keyword) hkeyword,
        head_statementTokens hne, if_neg Bool.false_ne_true, hall]
      refine List.mem_map.mpr ⟨d.nameToken, List.mem_filter.mpr ⟨?_, d.isDeclarable_nameToken⟩, rfl⟩
      exact List.mem_map_of_mem hd
    have hmem : declarationOf .value d.nameToken keyword (isExportedAfter front.reverse) ∈
        topLevelFrom [] 0 (front ++ .plain .keyword place keyword ::
          (statementTokens ds ++ more)) :=
      mem_topLevelFrom hfront (by simp) (by rwa [List.append_nil])
    exact Declarations.declares_insertAll hmem []

/-- Line breaks before a question mark, after a colon, before a comma and before a dot. -/
theorem declares_statementTokens_layout :
    ∃ ds : List Declarator,
      tokenize "let a = c\n? 1 :\n2\n, b = f\n.g;" =
          [] ++ .plain .keyword ⟨1, 1⟩ "let" :: (statementTokens ds ++ []) ∧
        ds.map Declarator.name = ["a", "b"] ∧ depthAfter 0 [] = 0 ∧
        "let" ∈ ["const", "let", "var"] ∧ ds ≠ [] ∧
        (∀ d ∈ ds.dropLast, ∀ b ∈ outerBreaks 0 d.value,
          isJoint b.1 = true ∨ isJoint b.2 = true ∧ b.2.isMark ":" = false) ∧
        ∀ d ∈ ds, (declarations (tokenize "let a = c\n? 1 :\n2\n, b = f\n.g;")).declares d.name =
          true := by
  let ds : List Declarator :=
    [⟨⟨1, 5⟩, "a", ⟨1, 7⟩, [.plain .identifier ⟨1, 9⟩ "c", .plain .operator ⟨2, 1⟩ "?",
        .plain .numeric ⟨2, 3⟩ "1", .plain .punctuation ⟨2, 5⟩ ":", .plain .numeric ⟨3, 1⟩ "2"],
        ⟨4, 1⟩, by decide, by decide, by decide, by decide⟩,
      ⟨⟨4, 3⟩, "b", ⟨4, 5⟩, [.plain .identifier ⟨4, 7⟩ "f", .plain .punctuation ⟨5, 1⟩ ".",
        .plain .identifier ⟨5, 2⟩ "g"], ⟨5, 3⟩, by decide, by decide, by decide, by decide⟩]
  have htokens : tokenize "let a = c\n? 1 :\n2\n, b = f\n.g;" =
      [] ++ .plain .keyword ⟨1, 1⟩ "let" :: (statementTokens ds ++ []) := rfl
  have hlayout : ∀ d ∈ ds.dropLast, ∀ b ∈ outerBreaks 0 d.value,
      isJoint b.1 = true ∨ isJoint b.2 = true ∧ b.2.isMark ":" = false := by decide
  have hne : ds ≠ [] := List.cons_ne_nil _ _
  refine ⟨ds, htokens, rfl, rfl, by decide, hne, hlayout, ?_⟩
  rw [htokens]
  exact (declares_statementTokens [] [] rfl (by decide) ⟨1, 1⟩ ds hne).2 hlayout

/-- A branch whose colon begins its line hides the declarators after it. -/
theorem not_forall_declares_statementTokens :
    ¬ ∀ (source keyword : String) (place : Position) (ds : List Declarator),
      keyword ∈ ["const", "let", "var"] →
        tokenize source = .plain .keyword place keyword :: statementTokens ds →
          (ds.map Declarator.name).Nodup →
            (∀ d ∈ ds, ∀ t ∈ d.value, t.isOperator ">" = false) →
              (tokenize source).IsChain
                (fun p t => p.line < t.line → isJoint p = true ∨ isJoint t = true) →
                  ∀ d ∈ ds, (declarations (tokenize source)).declares d.name = true := by
  intro h
  let second : Declarator :=
    ⟨⟨2, 6⟩, "b", ⟨2, 8⟩, [.plain .numeric ⟨2, 10⟩ "3"], ⟨2, 11⟩, by decide, by decide, by decide,
      by decide⟩
  let first : Declarator :=
    ⟨⟨1, 5⟩, "a", ⟨1, 7⟩, [.plain .identifier ⟨1, 9⟩ "c", .plain .operator ⟨1, 11⟩ "?",
      .plain .numeric ⟨1, 13⟩ "1", .plain .punctuation ⟨2, 1⟩ ":", .plain .numeric ⟨2, 3⟩ "2"],
      ⟨2, 4⟩, by decide, by decide, by decide, by decide⟩
  have htokens : tokenize "let a = c ? 1\n: 2, b = 3;" =
      .plain .keyword ⟨1, 1⟩ "let" :: statementTokens [first, second] := rfl
  have hjoints : (tokenize "let a = c ? 1\n: 2, b = 3;").IsChain
      (fun p t => p.line < t.line → isJoint p = true ∨ isJoint t = true) := by
    rw [htokens]
    decide
  have hdeclared := h _ _ _ [first, second] (by decide) htokens (by decide) (by decide) hjoints
    second (List.mem_cons_of_mem _ List.mem_cons_self)
  revert hdeclared
  decide +kernel

end SymbolAtlas.Script
