import SymbolAtlas.Proofs.Script.Interpolation
import SymbolAtlas.Proofs.Token.Category
import SymbolAtlas.Script.ImportClause
import SymbolAtlas.Script.TopLevel
import SymbolAtlas.Token.Scan

/-! # Words after a member access

After `.` or `?.` a word is a property's name. `function`, `class` and `type` declare nothing there,
because nothing there begins a statement; but the other declaring words are not asked whether they
begin one, `import` opens a clause wherever it stands, and a declaring word hides the name after it
whatever stands before the word. The main result says exactly which words are mere names.
-/

namespace SymbolAtlas.Script

open Token

/-- The declaring words that are not asked whether they begin a statement. -/
def unguardedWords : List String := ["const", "let", "var", "interface", "enum"]

section

variable {dot w : Token}

theorem exists_mark_of_isMemberAccess (h : isMemberAccess dot = true) :
    ∃ p s, dot = .plain .punctuation p s ∧ (s = "." ∨ s = "?.") := by
  rw [isMemberAccess, Bool.or_eq_true] at h
  rcases h with h | h
  · obtain ⟨p, rfl⟩ := eq_of_isMark h
    exact ⟨p, ".", rfl, .inl rfl⟩
  · obtain ⟨p, rfl⟩ := eq_of_isMark h
    exact ⟨p, "?.", rfl, .inr rfl⟩

theorem isModifier_of_isMemberAccess (h : isMemberAccess dot = true) : isModifier dot = false := by
  obtain ⟨p, s, rfl, _⟩ := exists_mark_of_isMemberAccess h
  simp [isModifier]

theorem isWordOf_of_isMemberAccess (h : isMemberAccess dot = true) (word : String) :
    dot.isWordOf word = false := by
  obtain ⟨p, s, rfl, _⟩ := exists_mark_of_isMemberAccess h
  simp

theorem isMemberAccess_of_isWord (h : w.isWord = true) : isMemberAccess w = false := by
  rw [isWord, Bool.or_eq_true] at h
  rcases h with h | h <;>
    rw [isMemberAccess, isMark_of_hasKind h (by decide), isMark_of_hasKind h (by decide),
      Bool.false_or]

/-! ## Declarations -/

/-- No statement begins after a member access. -/
theorem startsStatement_of_isMemberAccess (h : isMemberAccess dot = true) (before : List Token)
    (t : Token) : startsStatement (dot :: before) t = false := by
  have hmodifier := isModifier_of_isMemberAccess h
  obtain ⟨p, s, rfl, hs⟩ := exists_mark_of_isMemberAccess h
  simp only [startsStatement, List.takeWhile_cons, List.dropWhile_cons, hmodifier]
  rcases hs with rfl | rfl <;> simp [expectsMore, text]

/-- After a member access, a word that is not asked whether it begins a statement declares what it
declares at the beginning of a script, and any other word nothing. -/
theorem declarationsAt_of_isMemberAccess (h : isMemberAccess dot = true)
    (before rest : List Token) :
    declarationsAt (dot :: before) w rest =
      if w.text ∈ unguardedWords then declarationsAt [] w rest else [] := by
  have hexported : isExportedAfter (dot :: before) = false := by
    rw [isExportedAfter, List.takeWhile_cons, isModifier_of_isMemberAccess h]
    rfl
  have hbegin : isExportedAfter [] = false := rfl
  have hfollows (word : String) : (dot :: before).head?.any (·.isWordOf word) = false :=
    isWordOf_of_isMemberAccess h word
  have hstart := startsStatement_of_isMemberAccess h before w
  unfold declarationsAt
  split <;> simp_all [unguardedWords]

/-! ## Imports -/

/-- Whether a clause belongs to a statement rather than a call. -/
def isStatic : ImportClause → Bool
  | .requireCall | .dynamicCall => false
  | _ => true

theorem afterDefault_clause (b : Binding) (rest : List Token) :
    ∃ names, (afterDefault b rest).1 = .named names ∨
      (afterDefault b rest).1 = .defaultName names := by
  unfold afterDefault
  split
  · split
    · exact ⟨_, .inl rfl⟩
    split
    · split
      · exact ⟨_, .inl rfl⟩
      · exact ⟨_, .inr rfl⟩
    · exact ⟨_, .inr rfl⟩
  · exact ⟨_, .inr rfl⟩

/-- A clause that comes with a module name lists names. -/
theorem bindingClause_clause {ts rest : List Token} {clause : ImportClause}
    (h : bindingClause ts = some (clause, rest)) :
    ∃ names, clause = .wholeModule names ∨ clause = .named names ∨
      clause = .defaultName names := by
  unfold bindingClause at h
  split at h
  · cases h
  split at h
  · obtain ⟨_, _, heq⟩ := Option.map_eq_some_iff.mp h
    cases heq
    exact ⟨_, .inl rfl⟩
  split at h
  · cases h
    exact ⟨_, .inr (.inl rfl)⟩
  split at h
  · split at h
    · cases h
    · obtain rfl := congrArg Prod.fst (Option.some.inj h)
      obtain ⟨names, hnames⟩ := afterDefault_clause _ _
      exact ⟨names, .inr hnames⟩
  · cases h

/-- A static import begins with an `import` keyword that opens a clause. -/
theorem opensClause_of_isStatic {rest : List Token} {i : Import}
    (h : importAt w rest = some i) (hstatic : isStatic i.clause = true) :
    w.is .keyword "import" = true ∧ opensClause rest.head? = true := by
  unfold importAt at h
  split at h
  · next himport =>
    refine ⟨himport, ?_⟩
    obtain ⟨⟨clause, source⟩, hafter, rfl⟩ := Option.map_eq_some_iff.mp h
    unfold importAfter at hafter
    split at hafter
    · cases hafter
    · next first rest =>
      split at hafter
      · split at hafter <;> cases hafter <;> cases hstatic
      · next hcall =>
        split at hafter
        · cases hafter
        · next hmember =>
          simp only [opensClause, List.head?_cons, Option.any_some, hcall, hmember]
          rfl
  · split at h
    · obtain ⟨_, _, rfl⟩ := Option.map_eq_some_iff.mp h
      cases hstatic
    · cases h

/-! ## The next name -/

/-- The name `t` stands on a line after the word `w` and outside the import clauses; it is neither
built in nor contextual. -/
structure StandsBelow (before : List Token) (w t : Token) : Prop where
  isIdentifier : t.hasKind .identifier = true
  notBuiltin : Vocabulary.isBuiltin t.text = false
  notContextual : Vocabulary.isContextual t.text = false
  isBelow : w.line < t.line
  isFree : ¬ LeavesClauseOpen before (some w)

theorem StandsBelow.isReference_iff {before : List Token} {t : Token}
    (h : StandsBelow before w t) (hword : w.isWord = true) (next : Option Token) :
    isReference (some w) t next = !isDeclaring w := by
  have hkeyword : actsAsKeyword t next = false := by
    rw [actsAsKeyword, h.notContextual, Bool.false_and]
  simp [isReference, h.isIdentifier, h.notBuiltin, hkeyword, isMemberAccess_of_isWord hword]

/-- After a word that opens no clause, such a name is a reference unless the word declares. -/
theorem StandsBelow.contributed_eq {before after : List Token} {t : Token}
    (h : StandsBelow before w t) (hword : w.isWord = true)
    (hopens : clauseAfter false w (some t) = false) :
    contributed (before ++ [w]) t after =
      if isDeclaring w then [] else [⟨t.text, t.position⟩] := by
  have hclosed : clauseThrough false (some t) (before ++ [w]) = false := by
    rw [clauseThrough_append]
    exact (congrArg (clauseAfter · w (some t))
      (Bool.eq_false_iff.mpr (mt clauseThrough_false_iff.mp h.isFree))).trans hopens
  have href := h.isReference_iff hword after.head?
  have hkind := h.isIdentifier
  rw [contributed, List.getLast?_concat, hclosed]
  cases t with
  | template p s inside => cases hkind
  | plain kind p s =>
    rw [contribution_plain, href]
    cases isDeclaring w <;> rfl

end

/-! ## Mere names -/

/-- The word `w` between `dot` and `rest` is a mere name: it declares nothing, begins no static
import, opens no import clause, and does not keep a name below it from being a reference. -/
structure IsMereName (before : List Token) (dot w : Token) (rest : List Token) : Prop where
  declaresNothing : declarationsAt (dot :: before.reverse) w rest = []
  importsNothing : ∀ i, importAt w rest = some i → isStatic i.clause = false
  opensNothing : clauseAfter false w rest.head? = false
  hidesNothing : ∀ t after, rest = t :: after → StandsBelow (before ++ [dot]) w t →
    contributed (before ++ [dot] ++ [w]) t after = [⟨t.text, t.position⟩]

/-- After a member access a word is a mere name exactly if it is not `const`, `let`, `var`,
`interface` or `enum` with something after it to declare, no `import` before a clause, and no
declaring word with a name below it. -/
theorem isMereName_iff (before rest : List Token) {dot w : Token}
    (hdot : isMemberAccess dot = true) (hword : w.isWord = true) :
    IsMereName before dot w rest ↔
      (w.text ∈ unguardedWords → declarationsAt [] w rest = []) ∧
        (w.is .keyword "import" = true → opensClause rest.head? = false) ∧
          (isDeclaring w = true →
            ∀ t after, rest = t :: after → ¬ StandsBelow (before ++ [dot]) w t) := by
  have hdeclares := declarationsAt_of_isMemberAccess (w := w) hdot before.reverse rest
  constructor
  · intro h
    refine ⟨fun hmem => ?_, fun himport => ?_, fun hdeclaring t after hrest hbelow => ?_⟩
    · rw [if_pos hmem] at hdeclares
      rw [← hdeclares]
      exact h.declaresNothing
    · have hopens := h.opensNothing
      rwa [clauseAfter, if_pos himport, Bool.false_or] at hopens
    · have hopens := h.opensNothing
      rw [hrest, List.head?_cons] at hopens
      have hnone : contributed _ t after = _ := hbelow.contributed_eq hword hopens
      rw [if_pos hdeclaring, h.hidesNothing t after hrest hbelow] at hnone
      cases hnone
  · rintro ⟨hunguarded, himport, hdeclaring⟩
    have hopens : clauseAfter false w rest.head? = false := by
      rw [clauseAfter]
      split
      · next hw => rw [himport hw, Bool.false_or]
      · rw [Bool.false_and]
    refine ⟨?_, fun i hi => ?_, hopens, fun t after hrest hbelow => ?_⟩
    · rw [hdeclares]
      split
      · next hmem => exact hunguarded hmem
      · rfl
    · refine Bool.eq_false_iff.mpr fun hstatic => ?_
      obtain ⟨hw, hclause⟩ := opensClause_of_isStatic hi hstatic
      rw [himport hw] at hclause
      cases hclause
    · rw [hrest, List.head?_cons] at hopens
      rw [hbelow.contributed_eq hword hopens, if_neg]
      exact fun h => hdeclaring h t after hrest hbelow

/-- The property `get` leaves the name below it a reference. -/
theorem isMereName_get :
    tokenize "a?.get\nb" = [.plain .identifier ⟨1, 1⟩ "a"] ++ .plain .punctuation ⟨1, 2⟩ "?." ::
        .plain .identifier ⟨1, 4⟩ "get" :: [.plain .identifier ⟨2, 1⟩ "b"] ∧
      isMemberAccess (.plain .punctuation ⟨1, 2⟩ "?.") = true ∧
        (Token.plain .identifier ⟨1, 4⟩ "get").isWord = true ∧
          IsMereName [.plain .identifier ⟨1, 1⟩ "a"] (.plain .punctuation ⟨1, 2⟩ "?.")
            (.plain .identifier ⟨1, 4⟩ "get") [.plain .identifier ⟨2, 1⟩ "b"] :=
  ⟨rfl, by decide, by decide, (isMereName_iff _ _ (by decide) (by decide)).mpr
    ⟨fun h => absurd h (by decide), fun h => absurd h (by decide),
      fun h => absurd h (by decide)⟩⟩

/-- The property `type` hides the name of a call below it. -/
theorem not_forall_isMereName :
    ¬ ∀ (source : String) (before rest : List Token) (dot w : Token),
      tokenize source = before ++ dot :: w :: rest → isMemberAccess dot = true → w.isWord = true →
        IsMereName before dot w rest := by
  intro h
  have hmere := h "node.type\nrender(x)" [.plain .identifier ⟨1, 1⟩ "node"]
    [.plain .identifier ⟨2, 1⟩ "render", .plain .punctuation ⟨2, 7⟩ "(",
      .plain .identifier ⟨2, 8⟩ "x", .plain .punctuation ⟨2, 9⟩ ")"]
    (.plain .punctuation ⟨1, 5⟩ ".") (.plain .identifier ⟨1, 6⟩ "type") rfl (by decide) (by decide)
  have hbelow : StandsBelow [.plain .identifier ⟨1, 1⟩ "node", .plain .punctuation ⟨1, 5⟩ "."]
      (.plain .identifier ⟨1, 6⟩ "type") (.plain .identifier ⟨2, 1⟩ "render") :=
    ⟨by decide, by decide, by decide, by decide, mt clauseThrough_false_iff.mpr (by decide)⟩
  have hnone := hmere.hidesNothing _ _ rfl hbelow
  exact absurd hnone (by decide)

end SymbolAtlas.Script
