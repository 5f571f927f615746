import SymbolAtlas.Proofs.Script.PrintedClause
import SymbolAtlas.Proofs.Script.RequireCall
import SymbolAtlas.Script.Outline

/-! # Printed imports are all that is read

The outline of printed import statements has their imports and nothing else. No word of a
statement declares anything, all its names stand in its open clause, and its text has no call.
-/

namespace SymbolAtlas.Script

open Token Written

/-! ## Declarations -/

/-- The words that introduce a declaration wherever they stand, and so not `type`. -/
def declarationWords : List String :=
  ["const", "let", "var", "function", "class", "interface", "enum"]

theorem declarationsAt_eq_nil {t : Token} {rest : List Token}
    (hword : t.text ∉ declarationWords)
    (htype : t.text = "type" → definesAlias rest.tail = false) (before : List Token) :
    declarationsAt before t rest = [] := by
  simp only [declarationWords, List.mem_cons, List.not_mem_nil, or_false, not_or] at hword
  unfold declarationsAt
  split <;> simp_all

theorem not_declaring_of_isBindable {name : String} (h : isBindable name = true) :
    name ∉ declarationWords := by
  intro hmem
  have hreserved : ∀ word ∈ declarationWords, isBindable word = false := by decide
  rw [hreserved name hmem] at h
  cases h

/-- Tokens that declare nothing, whatever stands before them, where `depth` brackets are open. -/
def DeclaresNothing (depth : Nat) (ts : List Token) : Prop :=
  ∀ before, topLevelFrom before depth ts = []

namespace DeclaresNothing

variable {depth : Nat} {ts : List Token}

theorem name {s : String} (h : DeclaresNothing 0 ts)
    (hword : s ∉ declarationWords)
    (htype : s = "type" → definesAlias ts.tail = false) (p : Position) :
    DeclaresNothing 0 (nameAt p s :: ts) := by
  intro before
  have hs : declarationsAt before (nameAt p s) ts = [] :=
    declarationsAt_eq_nil (t := nameAt p s) hword htype before
  simp [topLevelFrom, hs, h _]

theorem fixedName {s : String} (h : DeclaresNothing 0 ts)
    (hs : s ∈ ["import", "as", "from"]) (p : Position) : DeclaresNothing 0 (nameAt p s :: ts) := by
  simp only [List.mem_cons, List.not_mem_nil, or_false] at hs
  rcases hs with rfl | rfl | rfl <;>
    exact h.name (by decide) (fun heq => absurd heq (by decide)) p

/-- A bound name declares nothing, even if it is `type`: no alias follows it. -/
theorem bindable {s : String} {t u : Token} (h : DeclaresNothing 0 (t :: u :: ts))
    (hs : isBindable s = true) (hu : u.isOperator "<" = false ∧ u.isOperator "=" = false)
    (p : Position) : DeclaresNothing 0 (nameAt p s :: t :: u :: ts) := by
  apply h.name (not_declaring_of_isBindable hs)
  intro _
  simp [definesAlias, hu]

theorem innerName (h : DeclaresNothing (depth + 1) ts) (p : Position) (s : String) :
    DeclaresNothing (depth + 1) (nameAt p s :: ts) := by
  intro before
  simp [topLevelFrom, h _]

theorem other {t : Token} (h : DeclaresNothing depth ts)
    (ht : t.isWord = false ∧ t.isOpener = false ∧ t.isCloser = false) :
    DeclaresNothing depth (t :: ts) := by
  intro before
  simp [topLevelFrom, ht, h _]

theorem opener (h : DeclaresNothing (depth + 1) ts) (p : Position) :
    DeclaresNothing depth (.plain .punctuation p "\x7b" :: ts) := by
  intro before
  simp [topLevelFrom, h _]

theorem closer (h : DeclaresNothing depth ts) (p : Position) :
    DeclaresNothing (depth + 1) (.plain .punctuation p "\x7d" :: ts) := by
  intro before
  simp [topLevelFrom, h _]

theorem entry (h : DeclaresNothing (depth + 1) ts) (b : Binding) (blanks : List Char)
    (p : Position) : DeclaresNothing (depth + 1) (tokensFrom p (writtenEntry b blanks) ++ ts) := by
  obtain ⟨name, rename⟩ := b
  cases rename with
  | none => exact h.innerName p name
  | some rename => exact ((h.innerName _ rename).innerName _ "as").innerName p name

theorem entries (h : DeclaresNothing depth ts) (bs : List Binding) (p : Position) :
    DeclaresNothing (depth + 1) (tokensFrom p (writtenEntries bs) ++ ts) := by
  fun_induction writtenEntries bs generalizing p with
  | case1 => exact h.closer p
  | case2 b =>
    rw [tokensFrom_append, List.append_assoc]
    exact (h.closer _).entry b _ p
  | case3 b next bs ih =>
    rw [tokensFrom_append, List.append_assoc]
    exact ((ih _).other ⟨rfl, rfl, rfl⟩).entry b _ p

theorem source (h : DeclaresNothing 0 ts) (p q : Position) (s : String) :
    DeclaresNothing 0 (nameAt p "from" :: .plain .string q s :: ts) :=
  (h.other ⟨rfl, rfl, rfl⟩).fixedName (by decide) p

theorem list (h : DeclaresNothing 0 ts) (bs : List Binding) (p q : Position) (source : String) :
    DeclaresNothing 0 (tokensFrom p (writtenList bs) ++ .plain .string q source :: ts) := by
  simp only [writtenList, tokensFrom, tokensFrom_append, List.cons_append, List.append_assoc]
  exact ((h.source _ q source).entries bs _).opener p

theorem space {name : String} (h : DeclaresNothing 0 ts) (hname : isBindable name = true)
    (p q : Position) (source : String) :
    DeclaresNothing 0 (tokensFrom p (writtenSpace name) ++ .plain .string q source :: ts) := by
  obtain ⟨r, r', r'', htokens⟩ : ∃ r r' r'', tokensFrom p (writtenSpace name) =
      [.plain .operator p "*", nameAt r "as", nameAt r' name, nameAt r'' "from"] :=
    ⟨_, _, _, rfl⟩
  rw [htokens]
  have hbound := (h.source r'' q source).bindable hname ⟨rfl, rfl⟩ r'
  exact (hbound.fixedName (by decide) r).other ⟨rfl, rfl, rfl⟩

theorem clause {clause : StatementClause} (h : DeclaresNothing 0 ts)
    (hclause : clause.isPrintable = true) (p q : Position) (source : String) :
    DeclaresNothing 0 (tokensFrom p clause.written ++ .plain .string q source :: ts) := by
  cases clause with
  | sideEffect => exact h.other ⟨rfl, rfl, rfl⟩
  | defaultName name => exact (h.source _ q source).bindable hclause ⟨rfl, rfl⟩ p
  | wholeModule name => exact h.space hclause p q source
  | named entries => exact h.list entries p q source
  | defaultAndNamed default entries =>
    simp only [StatementClause.isPrintable, Bool.and_eq_true] at hclause
    exact ((h.list entries _ q source).other ⟨rfl, rfl, rfl⟩).bindable hclause.1 ⟨rfl, rfl⟩ p
  | defaultAndWhole default name =>
    simp only [StatementClause.isPrintable, Bool.and_eq_true] at hclause
    exact ((h.space hclause.2 _ q source).other ⟨rfl, rfl, rfl⟩).bindable hclause.1 ⟨rfl, rfl⟩ p

theorem statement {s : ImportStatement} {ws : List Written} {p : Position}
    (h : DeclaresNothing 0 (tokensFrom ⟨p.line + 1, 1⟩ ws)) (hs : s.isPrintable = true) :
    DeclaresNothing 0 (tokensFrom p (s.written ++ ws)) := by
  obtain ⟨q, r, r', htokens⟩ := tokensFrom_statement hs p ws
  have hclause := (ImportStatement.isPrintable_iff.mp hs).1
  rw [htokens]
  exact ((h.other ⟨rfl, rfl, rfl⟩).clause hclause q r _).fixedName (by decide) p

theorem imports {statements : List ImportStatement} (h : ∀ s ∈ statements, s.isPrintable = true)
    (p : Position) : DeclaresNothing 0 (tokensFrom p (writtenImports statements)) := by
  induction statements generalizing p with
  | nil => exact fun _ => rfl
  | cons s statements ih =>
    rw [writtenImports, List.flatMap_cons]
    exact statement (ih (fun s' hs' => h s' (List.mem_cons_of_mem s hs')) _)
      (h s List.mem_cons_self)

end DeclaresNothing

/-! ## References -/

theorem clauseAfter_of_not_import {t : Token} (h : t.is .keyword "import" = false) (isOpen : Bool)
    (next : Option Token) : clauseAfter isOpen t next = (isOpen && !endsClause t) := by
  simp [clauseAfter, h]

/-- An open clause has no references up to the token that ends it. -/
theorem referencesFrom_open {ts : List Token} {u : Token} (hts : ∀ t ∈ ts, IsQuiet t)
    (hu : u.is .keyword "import" = false) (hend : endsClause u = true) (previous : Option Token)
    (rest : List Token) :
    referencesFrom previous true (ts ++ u :: rest) = referencesFrom (some u) false rest := by
  induction ts generalizing previous with
  | nil =>
    rw [List.nil_append, referencesFrom_cons, contribution_of_open, clauseAfter_of_not_import hu,
      hend]
    rfl
  | cons t ts ih =>
    obtain ⟨ht, _, _, hclause⟩ := hts t List.mem_cons_self
    rw [List.cons_append, referencesFrom_cons, contribution_of_open, clauseAfter_of_not_import ht,
      hclause]
    exact ih (fun t' ht' => hts t' (List.mem_cons_of_mem t ht')) _

theorem opensClause_append {ts : List Token} (hts : ∀ t ∈ ts, IsQuiet t) {u : Token}
    (hu : u.hasKind .string = true) (rest : List Token) :
    opensClause (ts ++ u :: rest).head? = true := by
  cases ts with
  | nil =>
    have hkind : u.hasKind .punctuation = false := by
      rw [Token.hasKind, beq_iff_eq] at hu
      rw [Token.hasKind, hu]
      rfl
    simp [opensClause, Token.isMark, Token.is, hkind]
  | cons t ts =>
    have ht := hts t List.mem_cons_self
    simp [opensClause, ht.not_call, ht.not_access]

theorem referencesFrom_statement {s : ImportStatement} (h : s.isPrintable = true) (p : Position)
    (ws : List Written) (previous : Option Token) :
    ∃ last, referencesFrom previous false (tokensFrom p (s.written ++ ws)) =
      referencesFrom last false (tokensFrom ⟨p.line + 1, 1⟩ ws) := by
  obtain ⟨q, r, r', htokens⟩ := tokensFrom_statement h p ws
  have hquiet := isQuiet_clause (ImportStatement.isPrintable_iff.mp h).1 q
  have hopen : clauseAfter false (nameAt p "import")
      (tokensFrom q s.clause.written ++ .plain .string r ("'" ++ s.source ++ "'") ::
        .plain .punctuation r' ";" :: tokensFrom ⟨p.line + 1, 1⟩ ws).head? = true :=
    clauseAfter_false_iff.mpr ⟨rfl, opensClause_append hquiet rfl _⟩
  refine ⟨some (.plain .punctuation r' ";"), ?_⟩
  rw [htokens, referencesFrom_cons, hopen, referencesFrom_open hquiet rfl rfl,
    referencesFrom_cons, clauseAfter_of_not_import rfl]
  rfl

theorem references_printed {statements : List ImportStatement}
    (h : ∀ s ∈ statements, s.isPrintable = true) (p : Position) (previous : Option Token) :
    referencesFrom previous false (tokensFrom p (writtenImports statements)) = [] := by
  induction statements generalizing p previous with
  | nil => exact referencesFrom.eq_1 previous false
  | cons s statements ih =>
    obtain ⟨last, hstep⟩ := referencesFrom_statement (h s List.mem_cons_self) p
      (writtenImports statements) previous
    rw [writtenImports, List.flatMap_cons, ← writtenImports, hstep]
    exact ih (fun s' hs' => h s' (List.mem_cons_of_mem s hs')) _ last

/-! ## The whole outline -/

theorem not_mem_printImports {statements : List ImportStatement}
    (h : ∀ s ∈ statements, s.isPrintable = true) : '(' ∉ (printImports statements).toList := by
  rw [printImports, String.toList_ofList]
  induction statements with
  | nil => simp [writtenImports]
  | cons s statements ih =>
    obtain ⟨hclause, hsource⟩ := ImportStatement.isPrintable_iff.mp (h s List.mem_cons_self)
    have hclause := not_mem_clause hclause (c := '(') (by decide) (by decide)
    have hsource : '(' ∉ s.source.toList := fun hmem =>
      (ne_of_isPrintableSource hsource _ hmem).2.2.1 rfl
    have hrest := ih fun s' hs' => h s' (List.mem_cons_of_mem s hs')
    rw [writtenImports, List.flatMap_cons, textOf_append, textOf_statement]
    rw [writtenImports] at hrest
    simp [hclause, hsource, hrest]

theorem isRelative_iff (source : String) :
    isRelative source = true ↔ source.toList.head? = some '.' := by
  unfold isRelative relativeLevel
  cases source.toList with
  | nil => decide
  | cons c cs =>
    by_cases hc : c = '.'
    · simp [hc]
    · simp [hc]

/-- Printed import statements are read back: the outline of their text has their imports and
nothing else. -/
theorem outline_printImports {statements : List ImportStatement}
    (h : ∀ s ∈ statements, s.isPrintable = true) (filename : Option String) :
    (outline (printImports statements) filename).imports = importsFromLine 1 statements ∧
      (∀ i ∈ (outline (printImports statements) filename).imports,
        i.isRelative = true ↔ i.source.toList.head? = some '.') ∧
      (outline (printImports statements) filename).declarations = [] ∧
      (outline (printImports statements) filename).references = [] := by
  have htokens := tokenize_printImports h
  refine ⟨?_, fun i _ => isRelative_iff i.source, ?_, ?_⟩
  · simp only [outline, imports, textImports_eq_nil (not_mem_printImports h), htokens]
    exact tokenImports_printed h 1
  · simp only [outline, declarations, htokens, DeclaresNothing.imports h .start []]
    rfl
  · simp only [outline, references, htokens]
    exact references_printed h .start none

theorem outline_printImports_contextual :
    (∀ s ∈ [ImportStatement.mk (.defaultAndNamed "type" [⟨"as", none⟩, ⟨"default", some "from"⟩])
        "./m", ⟨.sideEffect, "n"⟩], s.isPrintable = true) ∧
      (outline (printImports [⟨.defaultAndNamed "type" [⟨"as", none⟩, ⟨"default", some "from"⟩],
        "./m"⟩, ⟨.sideEffect, "n"⟩]) none).imports =
        [⟨.named [⟨"type", none⟩, ⟨"as", none⟩, ⟨"default", some "from"⟩], "./m", ⟨1, 1⟩⟩,
          ⟨.sideEffect, "n", ⟨2, 1⟩⟩] := by
  have h : ∀ s ∈ [ImportStatement.mk
      (.defaultAndNamed "type" [⟨"as", none⟩, ⟨"default", some "from"⟩]) "./m",
        ⟨.sideEffect, "n"⟩], s.isPrintable = true := by
    decide
  exact ⟨h, (outline_printImports h none).1⟩

end SymbolAtlas.Script
