import SymbolAtlas.Proofs.Declaration
import SymbolAtlas.Proofs.Script.ClosedStatement
import SymbolAtlas.Proofs.Script.PrintedOutline

/-! # Statements one after the other

The declarations of a script are those of its statements, statement by statement. A statement that
ends with a semicolon keeps to itself if all its brackets, angle brackets included, are closed. Not
so a variable with an annotation but no semicolon: an annotation is read on over the line break.
-/

namespace SymbolAtlas.Script

open Token

/-- The tokens are a statement, or several, after which what follows begins a statement of its own
and none of whose declarations is read on into it. -/
inductive Separate : List Token → List Token → Prop
  /-- Statements up to a semicolon in which brackets nest and angle brackets are closed. -/
  | closed {ts next : List Token} (hlast : EndsInSemicolon ts) (hnests : nests [] ts = true)
      (hangles : anglesAfter 0 ts = 0) : Separate ts next
  /-- Statements up to a semicolon in which brackets are balanced. Comparisons may leave angle
  brackets open, as long as no declaration is read to the end. -/
  | within {ts next : List Token} (hlast : EndsInSemicolon ts) (hopen : depthAfter 0 ts = 0)
      (hwithin : declarationsWithin 0 ts = true) : Separate ts next
  /-- A variable with an annotation of one word, ended by a line break. The annotation is read on
  over the line break; it must not come to a comma, after which more variables would follow. -/
  | lineBreak {modifiers next : List Token} {keyword name type : String} {p q r s : Position}
      (hmodifiers : ∀ m ∈ modifiers, isModifier m = true ∧ m.text ≠ "const")
      (hkeyword : keyword ∈ ["const", "let", "var"])
      (hname : Vocabulary.isReserved name = false) (htype : Vocabulary.isReserved type = false)
      (hmodifier : isModifier (nameAt s type) = false)
      (hline : ∀ first ∈ next.head?, s.line < first.line)
      (hcomma : (afterDeclarator (.plain .punctuation r ":" :: nameAt s type :: next)).head?.any
        (·.isMark ",") = false) :
      Separate
        (modifiers ++ [nameAt p keyword, nameAt q name, .plain .punctuation r ":", nameAt s type])
        next

/-! ## Statements with a semicolon -/

/-- What begins after a semicolon declares the same as at the beginning of a script. -/
theorem topLevelFrom_append_of_semicolon {ts next : List Token} (hlast : EndsInSemicolon ts)
    (hopen : depthAfter 0 ts = 0) (hwithin : declarationsWithin 0 ts = true) :
    topLevelFrom [] 0 (ts ++ next) = topLevelFrom [] 0 ts ++ topLevelFrom [] 0 next := by
  rw [topLevelFrom_append (.inr hlast) hopen hwithin, List.append_nil]
  obtain ⟨p, hlast⟩ := hlast
  obtain ⟨front, rfl⟩ := List.getLast?_eq_some_iff.mp hlast
  have hapart : topLevelFrom ([] ++ .plain .punctuation p ";" :: front.reverse) 0 next =
      topLevelFrom [] 0 next :=
    topLevelFrom_apart rfl fun _ _ => rfl
  rw [List.reverse_append, List.reverse_singleton, List.singleton_append, ← hapart]
  rfl

/-! ## A variable without a semicolon -/

theorem hasKind_nameAt_identifier {p : Position} {name : String}
    (h : Vocabulary.isReserved name = false) : (nameAt p name).hasKind .identifier = true := by
  rw [nameAt, Lexeme.nameKind, String.ofList_toList, h, hasKind_plain]
  rfl

theorem target_identifier {x : Token} (hx : x.hasKind .identifier = true) (steps : Nat)
    (rest : List Token) : target? (steps + 1) (x :: rest) = some ([x], rest) := by
  obtain ⟨p, s, rfl⟩ := eq_of_hasKind hx
  rw [target_cons]
  rfl

theorem variableNames_single {x : Token} {rest : List Token}
    (hx : x.hasKind .identifier = true)
    (hcomma : (afterDeclarator rest).head?.any (·.isMark ",") = false) :
    variableNames (x :: rest) = [x] := by
  rw [variableNames, declaratorNames]
  simp only [target_identifier hx]
  cases hnext : afterDeclarator rest with
  | nil => rfl
  | cons comma after =>
    rw [hnext, List.head?_cons, Option.any_some] at hcomma
    simp only [hcomma, Bool.false_eq_true, if_false]

theorem declarationsAt_variable {t : Token} (h : t.text ∈ ["const", "let", "var"])
    (before rest : List Token) :
    declarationsAt before t rest =
      if rest.head?.any (·.isWordOf "enum") then []
      else ((variableNames rest).filter isDeclarable).map fun name =>
        declarationOf .value name t.text (isExportedAfter before) := by
  simp only [List.mem_cons, List.not_mem_nil, or_false] at h
  unfold declarationsAt
  split
  case h_1 | h_2 | h_3 => rfl
  all_goals simp_all

theorem not_declaring_of_not_isReserved {word : String} (h : Vocabulary.isReserved word = false) :
    word ∉ declarationWords := by
  intro hmem
  have hreserved : ∀ word ∈ declarationWords, Vocabulary.isReserved word = true := by decide
  rw [hreserved word hmem] at h
  cases h

/-- A modifier declares nothing itself and opens no bracket. -/
theorem topLevelFrom_modifiers {modifiers : List Token}
    (h : ∀ m ∈ modifiers, isModifier m = true ∧ m.text ≠ "const") (before ts : List Token) :
    topLevelFrom before 0 (modifiers ++ ts) = topLevelFrom (modifiers.reverse ++ before) 0 ts := by
  induction modifiers generalizing before with
  | nil => rfl
  | cons m modifiers ih =>
    obtain ⟨hmodifier, hconst⟩ := h m List.mem_cons_self
    rw [isModifier, Bool.and_eq_true, List.contains_eq_mem, decide_eq_true_eq] at hmodifier
    have hothers : ∀ word ∈ declarationModifiers, word ≠ "const" →
        word ∉ declarationWords ∧ word ≠ "type" := by decide
    obtain ⟨hword, htype⟩ := hothers m.text hmodifier.2 hconst
    have hnone : declarationsAt before m (modifiers ++ ts) = [] :=
      declarationsAt_eq_nil hword (fun h => absurd h htype) before
    have hdepth : bracketDepth 0 m = 0 := bracketDepth_of_isWord hmodifier.1 0
    rw [List.cons_append, topLevelFrom_cons, hnone, ite_self, List.nil_append, hdepth,
      ih fun n hn => h n (List.mem_cons_of_mem m hn), List.reverse_cons, List.append_assoc,
      List.singleton_append]

/-- Whatever the names and the type of a variable statement are, they declare nothing
themselves. -/
theorem topLevelFrom_variable {keyword name type : String} {p q r s : Position}
    {before next : List Token} (hkeyword : keyword ∈ ["const", "let", "var"])
    (hname : Vocabulary.isReserved name = false) (htype : Vocabulary.isReserved type = false)
    (hcomma : (afterDeclarator (.plain .punctuation r ":" :: nameAt s type :: next)).head?.any
      (·.isMark ",") = false) :
    topLevelFrom before 0
        (nameAt p keyword :: nameAt q name :: .plain .punctuation r ":" :: nameAt s type :: next) =
      ([nameAt q name].filter isDeclarable).map (fun x =>
          declarationOf .value x keyword (isExportedAfter before)) ++
        topLevelFrom (nameAt s type :: .plain .punctuation r ":" :: nameAt q name ::
          nameAt p keyword :: before) 0 next := by
  have hvariable : declarationsAt before (nameAt p keyword)
      (nameAt q name :: .plain .punctuation r ":" :: nameAt s type :: next) =
        ([nameAt q name].filter isDeclarable).map fun x =>
          declarationOf .value x keyword (isExportedAfter before) := by
    have henum : name ≠ "enum" := by
      rintro rfl
      cases hname
    rw [declarationsAt_variable (t := nameAt p keyword) hkeyword,
      variableNames_single (hasKind_nameAt_identifier hname) hcomma]
    simp [henum]
  have hfirst : declarationsAt (nameAt p keyword :: before) (nameAt q name)
      (.plain .punctuation r ":" :: nameAt s type :: next) = [] :=
    declarationsAt_eq_nil (t := nameAt q name) (not_declaring_of_not_isReserved hname)
      (fun _ => by simp [definesAlias]) _
  have hsecond : declarationsAt (.plain .punctuation r ":" :: nameAt q name :: nameAt p keyword ::
      before) (nameAt s type) next = [] := by
    by_cases halias : type = "type"
    · have hstart : startsStatement (.plain .punctuation r ":" :: nameAt q name ::
          nameAt p keyword :: before) (nameAt s type) = false := by
        simp [startsStatement, isModifier, expectsMore, text]
      unfold declarationsAt
      rw [hstart]
      split <;> simp_all
    · exact declarationsAt_eq_nil (t := nameAt s type) (not_declaring_of_not_isReserved htype)
        (fun h => absurd h halias) _
  rw [topLevelFrom_cons, topLevelFrom_cons, topLevelFrom_cons, topLevelFrom_cons]
  simp [bracketDepth, hvariable, hfirst, hsecond]

/-- A statement begins on a line after a type that is no modifier. -/
theorem startsStatement_after_type {type : String} {s : Position} {first : Token}
    (htype : Vocabulary.isReserved type = false) (hmodifier : isModifier (nameAt s type) = false)
    (hline : s.line < first.line) : startsStatement [nameAt s type] first = true := by
  have hkeyword : (nameAt s type).hasKind .keyword = false := by
    rw [nameAt, Lexeme.nameKind, String.ofList_toList, htype, hasKind_plain]
    rfl
  have hne : ((nameAt s type).line == first.line) = false :=
    beq_eq_false_iff_ne.mpr (Int.ne_of_lt hline)
  simp [startsStatement, hmodifier, hne, hkeyword, expectsMore, hasKind_nameAt]

/-! ## Independence -/

theorem Separate.topLevelFrom_append {ts next : List Token} (h : Separate ts next) :
    topLevelFrom [] 0 (ts ++ next) = topLevelFrom [] 0 ts ++ topLevelFrom [] 0 next := by
  cases h with
  | closed hlast hnests hangles =>
    have hclosing : Closing ts := ⟨hlast, ⟨[], hnests⟩, hangles⟩
    exact topLevelFrom_append_of_semicolon hlast hclosing.depth_eq_zero hclosing.declarationsWithin
  | within hlast hopen hwithin => exact topLevelFrom_append_of_semicolon hlast hopen hwithin
  | @lineBreak modifiers _ keyword name type p q r s hmodifiers hkeyword hname htype hmodifier hline
      hcomma =>
    have hapart (far : List Token) :
        topLevelFrom (nameAt s type :: far) 0 next = topLevelFrom [] 0 next :=
      @topLevelFrom_apart _ [] far next 0 hmodifier fun first h =>
        startsStatement_after_type htype hmodifier (hline first h)
    have hnone : afterDeclarator [.plain .punctuation r ":", nameAt s type] = [] := by
      simp [afterDeclarator, afterVariableType, angleDepth, angleChange]
    have halone := @topLevelFrom_variable _ _ _ p q r s modifiers.reverse [] hkeyword hname htype
      (by rw [hnone]; rfl)
    have hfollowed := @topLevelFrom_variable _ _ _ p q r s modifiers.reverse next hkeyword hname
      htype hcomma
    rw [topLevelFrom, List.append_nil] at halone
    rw [hapart] at hfollowed
    rw [List.append_assoc, topLevelFrom_modifiers hmodifiers, topLevelFrom_modifiers hmodifiers,
      List.append_nil]
    exact hfollowed.trans (by rw [halone])

/-- Statements are independent: what tokens declare after a statement is declared on top of what
the statement declares, and nothing else is, as long as no declaration is read on. -/
theorem declarations_append {ts next : List Token} (h : Separate ts next) :
    declarations (ts ++ next) = Declarations.insertAll (declarations ts) (declarations next) := by
  -- That the declarations of `next` are gathered first makes no difference.
  rw [declarations, h.topLevelFrom_append, Declarations.insertAll_append, declarations,
    declarations, Declarations.insertAll_insertAll List.Pairwise.nil]
  rfl

/-- A pattern with an annotation and a second variable, up to a semicolon; and a variable without
a semicolon, before a statement that is on the next line. -/
theorem declarations_append_variables :
    (let ts := tokenize "let \x7bk: [a, b = f(1, 2)]\x7d: T<U> = g(c), d;"
      let next := tokenize "\nvar d"
      Separate ts next ∧ declarations (ts ++ next) =
        Declarations.insertAll (declarations ts) (declarations next)) ∧
    let ts := [nameAt ⟨1, 1⟩ "export", nameAt ⟨1, 8⟩ "let", nameAt ⟨1, 12⟩ "x",
      .plain .punctuation ⟨1, 13⟩ ":", nameAt ⟨1, 15⟩ "T"]
    let next := tokenize "\nvar y = f(1, 2)"
    Separate ts next ∧
      declarations (ts ++ next) = Declarations.insertAll (declarations ts) (declarations next) := by
  refine ⟨?_, ?_⟩ <;> intro ts next
  · have hlast : EndsInSemicolon ts := ⟨⟨1, 42⟩, rfl⟩
    have h : Separate ts next := .closed hlast (by decide +kernel) (by decide +kernel)
    exact ⟨h, declarations_append h⟩
  · have h : Separate ts next :=
      @Separate.lineBreak [nameAt ⟨1, 1⟩ "export"] next "let" "x" "T" _ _ _ _ (by decide)
        (by decide) (by decide +kernel) (by decide +kernel) (by decide +kernel) (by decide +kernel)
        (by decide +kernel)
    exact ⟨h, declarations_append h⟩

/-- An annotation is read on over a line break, and a `<` without its `>` over a semicolon, to a
comma of the next statement. -/
theorem not_declarations_append :
    (∃ ts next, tokenize "let x: T\na, b" = ts ++ next ∧
      ts.map Token.text = ["let", "x", ":", "T"] ∧
      declarations (ts ++ next) ≠ Declarations.insertAll (declarations ts) (declarations next)) ∧
    ∃ ts next, tokenize "let a = b<c;\nd > 1, e" = ts ++ next ∧
      EndsInSemicolon ts ∧ nests [] ts = true ∧
      declarations (ts ++ next) ≠ Declarations.insertAll (declarations ts) (declarations next) := by
  constructor
  · refine ⟨[nameAt ⟨1, 1⟩ "let", nameAt ⟨1, 5⟩ "x", .plain .punctuation ⟨1, 6⟩ ":",
      nameAt ⟨1, 8⟩ "T"], [nameAt ⟨2, 1⟩ "a", .plain .punctuation ⟨2, 2⟩ ",",
      nameAt ⟨2, 4⟩ "b"], rfl, rfl, by decide +kernel⟩
  · refine ⟨[nameAt ⟨1, 1⟩ "let", nameAt ⟨1, 5⟩ "a", .plain .operator ⟨1, 7⟩ "=",
      nameAt ⟨1, 9⟩ "b", .plain .operator ⟨1, 10⟩ "<", nameAt ⟨1, 11⟩ "c",
      .plain .punctuation ⟨1, 12⟩ ";"], [nameAt ⟨2, 1⟩ "d", .plain .operator ⟨2, 3⟩ ">",
      .plain .numeric ⟨2, 5⟩ "1", .plain .punctuation ⟨2, 6⟩ ",", nameAt ⟨2, 8⟩ "e"],
      rfl, ⟨⟨1, 12⟩, rfl⟩, by decide +kernel, by decide +kernel⟩

end SymbolAtlas.Script
