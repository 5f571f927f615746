import SymbolAtlas.Import
import SymbolAtlas.Proofs.Text.LineIndex
import SymbolAtlas.Proofs.Token.Written

/-! # Import statements as they are printed

An import statement is printed on a line of its own, with one space between words and after each
comma. Its names are names in ASCII; a name that it binds is not reserved, whereas a name that it
only imports may be, `import` aside. Its source is any text that can stand in single quotes and
has no opening parenthesis.
-/

namespace SymbolAtlas.Script

open Written

/-- The clause of an import statement: what stands between `import` and the source. -/
inductive StatementClause where
  | sideEffect
  | defaultName (name : String)
  | wholeModule (name : String)
  | named (entries : List Binding)
  | defaultAndNamed (default : String) (entries : List Binding)
  | defaultAndWhole (default name : String)
  deriving DecidableEq, Repr

structure ImportStatement where
  clause : StatementClause
  source : String
  deriving DecidableEq, Repr

/-! ## Printing -/

def writtenEntry (b : Binding) (blanks : List Char) : List Written :=
  match b.rename with
  | none => [word b.name blanks]
  | some rename => [word b.name [' '], word "as" [' '], word rename blanks]

def writtenEntries : List Binding → List Written
  | [] => [mark "\x7d" [' ']]
  | [b] => writtenEntry b [' '] ++ [mark "\x7d" [' ']]
  | b :: next :: bs => writtenEntry b [] ++ mark "," [' '] :: writtenEntries (next :: bs)

def writtenList (entries : List Binding) : List Written :=
  mark "\x7b" (if entries.isEmpty then [] else [' ']) ::
    (writtenEntries entries ++ [word "from" [' ']])

def writtenSpace (name : String) : List Written :=
  [star, word "as" [' '], word name [' '], word "from" [' ']]

namespace StatementClause

/-- A clause as it is written, with the word `from` after its names. -/
def written : StatementClause → List Written
  | sideEffect => []
  | defaultName name => [word name [' '], word "from" [' ']]
  | wholeModule name => writtenSpace name
  | named entries => writtenList entries
  | defaultAndNamed default entries => word default [] :: mark "," [' '] :: writtenList entries
  | defaultAndWhole default name => word default [] :: mark "," [' '] :: writtenSpace name

/-- The clause of the import that a statement makes: a default name beside others is listed with
them. -/
def imported : StatementClause → ImportClause
  | sideEffect => .sideEffect
  | defaultName name => .defaultName [⟨name, none⟩]
  | wholeModule name => .wholeModule [⟨"*", some name⟩]
  | named entries => .named entries
  | defaultAndNamed default entries => .named (⟨default, none⟩ :: entries)
  | defaultAndWhole default name => .named [⟨default, none⟩, ⟨"*", some name⟩]

end StatementClause

def ImportStatement.written (s : ImportStatement) : List Written :=
  word "import" [' '] :: (s.clause.written ++ [quoted s.source [], mark ";" ['\n']])

def writtenImports (statements : List ImportStatement) : List Written :=
  statements.flatMap ImportStatement.written

def printImports (statements : List ImportStatement) : String :=
  String.ofList (textOf (writtenImports statements))

example :
    printImports
        [⟨.defaultAndNamed "type" [⟨"a", none⟩, ⟨"default", some "from"⟩], "./m"⟩,
          ⟨.named [], "n"⟩, ⟨.sideEffect, "o"⟩] =
      "import type, \x7b a, default as from \x7d from './m';\nimport \x7b\x7d from 'n';\n" ++
        "import 'o';\n" := by
  decide

/-! ## What can be printed -/

def isBindable (s : String) : Bool := isAsciiName s && !Vocabulary.isReserved s

def isListable (b : Binding) : Bool :=
  isAsciiName b.name && b.name != "import" && b.rename.all isBindable

def isPrintableSource (s : String) : Bool :=
  s.toList.all fun c => c != '\'' && c != '\\' && c != '(' && c != '\n'

def StatementClause.isPrintable : StatementClause → Bool
  | sideEffect => true
  | defaultName name => isBindable name
  | wholeModule name => isBindable name
  | named entries => entries.all isListable
  | defaultAndNamed default entries => isBindable default && entries.all isListable
  | defaultAndWhole default name => isBindable default && isBindable name

def ImportStatement.isPrintable (s : ImportStatement) : Bool :=
  s.clause.isPrintable && isPrintableSource s.source

theorem ImportStatement.isPrintable_iff {s : ImportStatement} :
    s.isPrintable = true ↔ s.clause.isPrintable = true ∧ isPrintableSource s.source = true := by
  rw [isPrintable, Bool.and_eq_true]

theorem ne_of_isPrintableSource {s : String} (h : isPrintableSource s = true) :
    ∀ c ∈ s.toList, c ≠ '\'' ∧ c ≠ '\\' ∧ c ≠ '(' ∧ c ≠ '\n' := by
  intro c hc
  have hc := List.all_eq_true.mp h c hc
  simp only [Bool.and_eq_true, bne_iff_ne] at hc
  exact ⟨hc.1.1.1, hc.1.1.2, hc.1.2, hc.2⟩

theorem isAsciiName_of_isBindable {s : String} (h : isBindable s = true) :
    isAsciiName s = true := by
  simp only [isBindable, Bool.and_eq_true] at h
  exact h.1

theorem nameKind_of_isBindable {s : String} (h : isBindable s = true) :
    Lexeme.nameKind s.toList = .identifier := by
  simp only [isBindable, Bool.and_eq_true, Bool.not_eq_true'] at h
  rw [Lexeme.nameKind, String.ofList_toList, h.2]
  rfl

/-! ## Printed statements are legible -/

theorem allLegible_word {s : String} {ws : List Written} (hs : isAsciiName s = true)
    (hws : AllLegible ws) : AllLegible (word s [' '] :: ws) :=
  ⟨legible_word hs rfl rfl, hws⟩

theorem allLegible_word_comma {s : String} {ws : List Written} (hs : isAsciiName s = true)
    (hws : AllLegible ws) : AllLegible (word s [] :: mark "," [' '] :: ws) :=
  ⟨legible_word hs rfl rfl, allLegible_mark (by decide) rfl hws⟩

theorem allLegible_entry {b : Binding} {blanks : List Char} {ws : List Written}
    (hb : isListable b = true)
    (hws : ∀ s, isAsciiName s = true → AllLegible (word s blanks :: ws)) :
    AllLegible (writtenEntry b blanks ++ ws) := by
  simp only [isListable, Bool.and_eq_true] at hb
  cases hrename : b.rename with
  | none =>
    simp only [writtenEntry, hrename]
    exact hws b.name hb.1.1
  | some rename =>
    simp only [hrename, Option.all_some] at hb
    simp only [writtenEntry, hrename]
    have hlast := hws rename (isAsciiName_of_isBindable hb.2)
    exact allLegible_word hb.1.1 (allLegible_word (by decide) hlast)

theorem allLegible_entries {entries : List Binding} {ws : List Written}
    (h : ∀ b ∈ entries, isListable b = true) (hws : AllLegible ws) :
    AllLegible (writtenEntries entries ++ ws) := by
  have hclose : AllLegible (mark "\x7d" [' '] :: ws) :=
    allLegible_mark (by decide) rfl hws
  fun_induction writtenEntries entries with
  | case1 => exact hclose
  | case2 b =>
    rw [List.append_assoc]
    exact allLegible_entry (h b List.mem_cons_self) fun s hs => allLegible_word hs hclose
  | case3 b next bs ih =>
    have hrest := ih fun b' hb' => h b' (List.mem_cons_of_mem b hb')
    rw [List.append_assoc]
    exact allLegible_entry (h b List.mem_cons_self) fun s hs => allLegible_word_comma hs hrest

theorem allLegible_list {entries : List Binding} {ws : List Written}
    (h : ∀ b ∈ entries, isListable b = true) (hws : AllLegible ws) :
    AllLegible (writtenList entries ++ ws) := by
  have hblanks : (if entries.isEmpty then [] else [' ']).all Lexeme.isGap = true := by
    split <;> rfl
  rw [writtenList, List.cons_append, List.append_assoc]
  exact allLegible_mark (by decide) hblanks
    (allLegible_entries h (allLegible_word (by decide) hws))

theorem allLegible_space {name : String} {ws : List Written} (h : isAsciiName name = true)
    (hws : AllLegible ws) : AllLegible (writtenSpace name ++ ws) :=
  ⟨legible_star _, allLegible_word (by decide)
    (allLegible_word h (allLegible_word (by decide) hws))⟩

theorem allLegible_clause {clause : StatementClause} {ws : List Written}
    (h : clause.isPrintable = true) (hws : AllLegible ws) :
    AllLegible (clause.written ++ ws) := by
  cases clause with
  | sideEffect => exact hws
  | defaultName name =>
    exact allLegible_word (isAsciiName_of_isBindable h) (allLegible_word (by decide) hws)
  | wholeModule name => exact allLegible_space (isAsciiName_of_isBindable h) hws
  | named entries => exact allLegible_list (List.all_eq_true.mp h) hws
  | defaultAndNamed default entries =>
    simp only [StatementClause.isPrintable, Bool.and_eq_true] at h
    exact allLegible_word_comma (isAsciiName_of_isBindable h.1)
      (allLegible_list (List.all_eq_true.mp h.2) hws)
  | defaultAndWhole default name =>
    simp only [StatementClause.isPrintable, Bool.and_eq_true] at h
    exact allLegible_word_comma (isAsciiName_of_isBindable h.1)
      (allLegible_space (isAsciiName_of_isBindable h.2) hws)

theorem allLegible_statement {s : ImportStatement} {ws : List Written}
    (h : s.isPrintable = true) (hws : AllLegible ws) : AllLegible (s.written ++ ws) := by
  obtain ⟨hclause, hsource⟩ := ImportStatement.isPrintable_iff.mp h
  have hsource := ne_of_isPrintableSource hsource
  rw [ImportStatement.written, List.cons_append, List.append_assoc]
  apply allLegible_word (by decide)
  apply allLegible_clause hclause
  refine ⟨legible_quoted _ (fun c hc => ⟨(hsource c hc).1, (hsource c hc).2.1⟩) rfl, ?_⟩
  exact allLegible_mark (by decide) rfl hws

theorem allLegible_imports {statements : List ImportStatement}
    (h : ∀ s ∈ statements, s.isPrintable = true) : AllLegible (writtenImports statements) := by
  induction statements with
  | nil => exact trivial
  | cons s statements ih =>
    rw [writtenImports, List.flatMap_cons]
    exact allLegible_statement (h s List.mem_cons_self)
      (ih fun s' hs' => h s' (List.mem_cons_of_mem s hs'))

theorem tokenize_printImports {statements : List ImportStatement}
    (h : ∀ s ∈ statements, s.isPrintable = true) :
    tokenize (printImports statements) = tokensFrom .start (writtenImports statements) := by
  refine tokenize_written (allLegible_imports h) ?_
  cases statements <;> rfl

/-! ## What a clause is written with -/

/-- A token that a clause is written with: a name other than `import`, a brace, a comma or a
star. -/
inductive ClausePiece : Written → Prop
  | word {s : String} {blanks : List Char} (hs : isAsciiName s = true) (hne : s ≠ "import")
      (hblanks : blanks = [] ∨ blanks = [' ']) : ClausePiece (word s blanks)
  | mark {s : String} {blanks : List Char} (hs : s = "\x7b" ∨ s = "\x7d" ∨ s = ",")
      (hblanks : blanks = [] ∨ blanks = [' ']) : ClausePiece (mark s blanks)
  | star : ClausePiece star

theorem ne_import_of_isBindable {s : String} (h : isBindable s = true) : s ≠ "import" := by
  rintro rfl
  revert h
  decide

theorem clausePiece_bindable {s : String} {blanks : List Char} (h : isBindable s = true)
    (hblanks : blanks = [] ∨ blanks = [' ']) : ClausePiece (word s blanks) :=
  .word (isAsciiName_of_isBindable h) (ne_import_of_isBindable h) hblanks

theorem clausePiece_entry {b : Binding} {blanks : List Char} (h : isListable b = true)
    (hblanks : blanks = [] ∨ blanks = [' ']) : ∀ w ∈ writtenEntry b blanks, ClausePiece w := by
  simp only [isListable, Bool.and_eq_true, bne_iff_ne] at h
  obtain ⟨⟨hname, hne⟩, hrename⟩ := h
  cases hb : b.rename with
  | none =>
    simp only [writtenEntry, hb, List.forall_mem_singleton]
    exact .word hname hne hblanks
  | some rename =>
    simp only [hb, Option.all_some] at hrename
    simp only [writtenEntry, hb, List.forall_mem_cons]
    exact ⟨.word hname hne (.inr rfl), .word (by decide) (by decide) (.inr rfl),
      clausePiece_bindable hrename hblanks, by simp⟩

theorem clausePiece_entries {entries : List Binding} (h : ∀ b ∈ entries, isListable b = true) :
    ∀ w ∈ writtenEntries entries, ClausePiece w := by
  have hclose : ClausePiece (mark "\x7d" [' ']) := .mark (.inr (.inl rfl)) (.inr rfl)
  fun_induction writtenEntries entries with
  | case1 => simpa using hclose
  | case2 b =>
    simp only [List.forall_mem_append, List.forall_mem_singleton]
    exact ⟨clausePiece_entry (h b List.mem_cons_self) (.inr rfl), hclose⟩
  | case3 b next bs ih =>
    simp only [List.forall_mem_append, List.forall_mem_cons]
    refine ⟨clausePiece_entry (h b List.mem_cons_self) (.inl rfl), ?_, ?_⟩
    · exact .mark (.inr (.inr rfl)) (.inr rfl)
    · exact ih fun b' hb' => h b' (List.mem_cons_of_mem b hb')

theorem clausePiece_list {entries : List Binding} (h : ∀ b ∈ entries, isListable b = true) :
    ∀ w ∈ writtenList entries, ClausePiece w := by
  simp only [writtenList, List.forall_mem_cons, List.forall_mem_append]
  refine ⟨.mark (.inl rfl) ?_, clausePiece_entries h, ?_⟩
  · split
    · exact .inl rfl
    · exact .inr rfl
  · simpa using ClausePiece.word (by decide) (by decide) (.inr rfl)

theorem clausePiece_space {name : String} (h : isBindable name = true) :
    ∀ w ∈ writtenSpace name, ClausePiece w := by
  simp only [writtenSpace, List.forall_mem_cons]
  exact ⟨.star, .word (by decide) (by decide) (.inr rfl), clausePiece_bindable h (.inr rfl),
    .word (by decide) (by decide) (.inr rfl), by simp⟩

theorem clausePiece_of_mem {clause : StatementClause} (h : clause.isPrintable = true) :
    ∀ w ∈ clause.written, ClausePiece w := by
  have hcomma : ClausePiece (mark "," [' ']) := .mark (.inr (.inr rfl)) (.inr rfl)
  cases clause with
  | sideEffect => simp [StatementClause.written]
  | defaultName name =>
    simp only [StatementClause.written, List.forall_mem_cons]
    exact ⟨clausePiece_bindable h (.inr rfl), .word (by decide) (by decide) (.inr rfl), by simp⟩
  | wholeModule name => exact clausePiece_space h
  | named entries => exact clausePiece_list (List.all_eq_true.mp h)
  | defaultAndNamed default entries =>
    simp only [StatementClause.isPrintable, Bool.and_eq_true] at h
    simp only [StatementClause.written, List.forall_mem_cons]
    exact ⟨clausePiece_bindable h.1 (.inl rfl), hcomma,
      clausePiece_list (List.all_eq_true.mp h.2)⟩
  | defaultAndWhole default name =>
    simp only [StatementClause.isPrintable, Bool.and_eq_true] at h
    simp only [StatementClause.written, List.forall_mem_cons]
    exact ⟨clausePiece_bindable h.1 (.inl rfl), hcomma, clausePiece_space h.2⟩

theorem isAsciiNamePart_of_mem {s : String} (h : isAsciiName s = true) :
    ∀ c ∈ s.toList, isAsciiNamePart c = true := by
  obtain ⟨c, cs, hs, hc, hcs⟩ := isAsciiName_cons h
  rw [hs, List.forall_mem_cons]
  exact ⟨isAsciiNamePart_of_start hc, hcs⟩

/-- A clause is written in name characters, spaces, braces, commas and stars. -/
theorem ClausePiece.char {w : Written} (h : ClausePiece w) :
    ∀ c ∈ w.chars, isAsciiNamePart c = true ∨ c ∈ [' ', '\x7b', '\x7d', ',', '*'] := by
  have hspace {blanks : List Char} (hblanks : blanks = [] ∨ blanks = [' ']) :
      ∀ c ∈ blanks, isAsciiNamePart c = true ∨ c ∈ [' ', '\x7b', '\x7d', ',', '*'] := by
    rcases hblanks with rfl | rfl <;> simp
  cases h with
  | word hs hne hblanks =>
    simp only [chars, List.forall_mem_append]
    exact ⟨fun c hc => .inl (isAsciiNamePart_of_mem hs c hc), hspace hblanks⟩
  | mark hs hblanks =>
    simp only [chars, Written.mark, List.forall_mem_append]
    refine ⟨?_, hspace hblanks⟩
    rcases hs with rfl | rfl | rfl <;> simp
  | star => simp [chars, Written.star]

theorem not_mem_clause {clause : StatementClause} (h : clause.isPrintable = true) {c : Char}
    (hc : isAsciiNamePart c = false) (hc' : c ∉ [' ', '\x7b', '\x7d', ',', '*']) :
    c ∉ textOf clause.written := by
  intro hmem
  obtain ⟨w, hw, hmem⟩ := List.mem_flatMap.mp hmem
  rcases (clausePiece_of_mem h w hw).char c hmem with hpart | hlist
  · rw [hc] at hpart
    cases hpart
  · exact hc' hlist

/-! ## Lines -/

theorem textOf_statement (s : ImportStatement) :
    textOf s.written = ("import ".toList ++ textOf s.clause.written ++
      ("'" ++ s.source ++ "';").toList) ++ ['\n'] := by
  simp [ImportStatement.written, word, quoted, mark]

/-- The next statement begins at the start of the next line. -/
theorem after_statement {s : ImportStatement} (h : s.isPrintable = true) (p : Position) :
    p.after (textOf s.written) = ⟨p.line + 1, 1⟩ := by
  obtain ⟨hclause, hsource⟩ := ImportStatement.isPrintable_iff.mp h
  have hclause := not_mem_clause hclause (c := '\n') (by decide) (by decide)
  have hsource : '\n' ∉ s.source.toList := fun hmem =>
    (ne_of_isPrintableSource hsource _ hmem).2.2.2 rfl
  have hline : '\n' ∉ "import ".toList ++ textOf s.clause.written ++
      ("'" ++ s.source ++ "';").toList := by
    simp [hclause, hsource]
  rw [textOf_statement, Position.after_append, Position.after_cons, Position.after_nil,
    Position.after_lineFeed hline]

end SymbolAtlas.Script
