import SymbolAtlas.Proofs.Script.PrintedImport
import SymbolAtlas.Proofs.Script.Reference
import SymbolAtlas.Proofs.Token.Category
import SymbolAtlas.Script.ImportClause

/-! # Printed clauses are read back

The tokens of printed import statements make the imports that the statements have, in order, each
at the start of its line. Words such as `type`, `from` and `as` are read as names wherever a
statement has a name, since what follows a name never lets one of them act as a keyword.
-/

namespace SymbolAtlas.Script

open Token Written

theorem unquote_of_isAsciiName {s : String} (h : isAsciiName s = true) : unquote s = s := by
  obtain ⟨c, cs, hs, hc, hcs⟩ := isAsciiName_cons h
  have hne {d : Char} (hd : isAsciiNameStart d = false) : c ≠ d := by
    rintro rfl
    rw [hc] at hd
    cases hd
  unfold unquote
  rw [hs]
  simp [hne (d := '"') (by decide), hne (d := '\'') (by decide), hne (d := '\x60') (by decide)]

theorem unquote_quoted (s : String) : unquote ("'" ++ s ++ "'") = s := by
  have htext : ("'" ++ s ++ "'").toList = '\'' :: (s.toList ++ ['\'']) := by
    simp
  unfold unquote
  rw [htext]
  simp

/-! ## Named lists -/

theorem namedEntry_alone {s m : String} (hs : isAsciiName s = true) (hm : m = "," ∨ m = "\x7d")
    (p q : Position) (ts : List Token) :
    namedEntry (nameAt p s) (.plain .punctuation q m :: ts) =
      (some ⟨s, none⟩, .plain .punctuation q m :: ts) := by
  have hmodifier : isEntryModifier (nameAt p s) (.plain .punctuation q m :: ts) = false := by
    rcases hm with rfl | rfl <;> simp [isEntryModifier, headIs]
  cases ts <;> simp [namedEntry, hmodifier, unquote_of_isAsciiName hs]

theorem namedEntry_renamed {s : String} (hs : isAsciiName s = true) (p q q' : Position)
    (rename : String) (ts : List Token) :
    namedEntry (nameAt p s) (nameAt q "as" :: nameAt q' rename :: ts) =
      (some ⟨s, some rename⟩, ts) := by
  have hmodifier : isEntryModifier (nameAt p s) (nameAt q "as" :: nameAt q' rename :: ts) =
      false := by
    simp [isEntryModifier, headIs]
  simp [namedEntry, hmodifier, unquote_of_isAsciiName hs]

theorem namedList_close (q : Position) (ts : List Token) :
    namedList (.plain .punctuation q "\x7d" :: ts) = ([], ts) := by
  rw [namedList]
  simp

theorem namedList_comma (q : Position) (ts : List Token) :
    namedList (.plain .punctuation q "," :: ts) = namedList ts := by
  rw [namedList]
  simp

theorem namedList_name {s : String} {ts : List Token} (hs : s ≠ "import")
    (hts : headIs (·.hasKind .string) ts = false) (p : Position) :
    namedList (nameAt p s :: ts) =
      ((namedEntry (nameAt p s) ts).1.toList ++ (namedList (namedEntry (nameAt p s) ts).2).1,
        (namedList (namedEntry (nameAt p s) ts).2).2) := by
  rw [namedList]
  simp [hs, hts]

/-- A printed entry is read up to the comma or brace after it. -/
theorem namedList_entry {b : Binding} {m : String} (hb : isListable b = true)
    (hm : m = "," ∨ m = "\x7d") (p q : Position) (blanks : List Char) (ts : List Token) :
    namedList (tokensFrom p (writtenEntry b blanks) ++ .plain .punctuation q m :: ts) =
      (b :: (namedList (.plain .punctuation q m :: ts)).1,
        (namedList (.plain .punctuation q m :: ts)).2) := by
  simp only [isListable, Bool.and_eq_true, bne_iff_ne] at hb
  obtain ⟨⟨hname, hne⟩, _⟩ := hb
  obtain ⟨name, rename⟩ := b
  cases rename with
  | none =>
    change namedList (nameAt p name :: .plain .punctuation q m :: ts) = _
    rw [namedList_name hne (by simp [headIs]), namedEntry_alone hname hm]
    rfl
  | some rename =>
    change namedList (nameAt p name :: nameAt _ "as" :: nameAt _ rename :: _) = _
    rw [namedList_name hne (by simp [headIs]), namedEntry_renamed hname]
    rfl

theorem namedList_entries {entries : List Binding} (h : ∀ b ∈ entries, isListable b = true)
    (p : Position) (ts : List Token) :
    namedList (tokensFrom p (writtenEntries entries) ++ ts) = (entries, ts) := by
  fun_induction writtenEntries entries generalizing p with
  | case1 => exact namedList_close p ts
  | case2 b =>
    rw [tokensFrom_append, List.append_assoc, tokensFrom, List.cons_append]
    refine (namedList_entry (h b List.mem_cons_self) (.inr rfl) _ _ _ _).trans ?_
    rw [namedList_close]
    rfl
  | case3 b next bs ih =>
    have hrest := ih fun b' hb' => h b' (List.mem_cons_of_mem b hb')
    rw [tokensFrom_append, List.append_assoc, tokensFrom, List.cons_append]
    refine (namedList_entry (h b List.mem_cons_self) (.inl rfl) _ _ _ _).trans ?_
    rw [namedList_comma, hrest]

/-! ## Clauses -/

theorem sourceAfter_from (p q : Position) (source : String) (ts : List Token) :
    sourceAfter (nameAt p "from" :: .plain .string q ("'" ++ source ++ "'") :: ts) =
      some source := by
  simp [sourceAfter, unquote_quoted, Token.text]

/-- A statement whose clause begins with the token `t`, which is no `type` modifier, imports what
its clause binds. -/
theorem importAfter_of_bindingClause {t : Token} {ts rest : List Token} {clause : ImportClause}
    {source : String} (hmark : t.isMark "(" = false ∧ t.isMark "." = false)
    (hstring : t.hasKind .string = false) (htype : withoutTypeModifier (t :: ts) = t :: ts)
    (hclause : bindingClause (t :: ts) = some (clause, rest))
    (hsource : sourceAfter rest = some source) :
    importAfter (t :: ts) = some (clause, source) := by
  unfold importAfter
  simp only [hmark.1, hmark.2, htype, Bool.false_eq_true, if_false]
  split
  · next heq =>
    -- A string in this place would make it a side-effect import.
    cases heq
    rw [hasKind_plain] at hstring
    exact absurd hstring (by decide)
  · simp [hclause, hsource]

theorem importAfter_sideEffect (p : Position) (source : String) (ts : List Token) :
    importAfter (.plain .string p ("'" ++ source ++ "'") :: ts) = some (.sideEffect, source) := by
  simp [importAfter, withoutTypeModifier, unquote_quoted]

theorem hasKind_of_isBindable {s : String} (h : isBindable s = true) (p : Position) :
    (nameAt p s).hasKind .identifier = true := by
  rw [nameAt, nameKind_of_isBindable h]
  rfl

section Clauses

variable {entries : List Binding} {default name source : String} {rest : List Token}
variable (p p' q q' r : Position) (ts : List Token)

theorem importAfter_default (h : isBindable name = true) :
    importAfter (nameAt p name :: nameAt q "from" ::
        .plain .string q' ("'" ++ source ++ "'") :: ts) =
      some (.defaultName [⟨name, none⟩], source) := by
  apply importAfter_of_bindingClause (by simp) (by simp)
  · simp [withoutTypeModifier, headIs]
  · simp [bindingClause, hasKind_of_isBindable h, headIs, afterDefault]
    rfl
  · exact sourceAfter_from q q' source ts

theorem importAfter_space (h : isBindable name = true) (hrest : sourceAfter rest = some source) :
    importAfter (.plain .operator p "*" :: nameAt q "as" :: nameAt r name :: rest) =
      some (.wholeModule [⟨"*", some name⟩], source) := by
  apply importAfter_of_bindingClause (by simp) (by simp)
  · simp [withoutTypeModifier]
  · simp [bindingClause, namespaceBinding, hasKind_of_isBindable h]
    rfl
  · exact hrest

theorem importAfter_list (h : ∀ b ∈ entries, isListable b = true)
    (hrest : sourceAfter rest = some source) :
    importAfter (.plain .punctuation p "\x7b" :: (tokensFrom q (writtenEntries entries) ++ rest)) =
      some (.named entries, source) := by
  apply importAfter_of_bindingClause (by simp) (by simp)
  · simp [withoutTypeModifier]
  · simp [bindingClause, namedList_entries h]
    rfl
  · exact hrest

theorem importAfter_defaultAndList (hd : isBindable default = true)
    (h : ∀ b ∈ entries, isListable b = true) (hrest : sourceAfter rest = some source) :
    importAfter (nameAt p default :: .plain .punctuation p' "," :: .plain .punctuation q "\x7b" ::
        (tokensFrom r (writtenEntries entries) ++ rest)) =
      some (.named (⟨default, none⟩ :: entries), source) := by
  apply importAfter_of_bindingClause (by simp) (by simp)
  · simp [withoutTypeModifier, headIs]
  · simp [bindingClause, hasKind_of_isBindable hd, headIs, afterDefault, namedList_entries h]
    rfl
  · exact hrest

theorem importAfter_defaultAndSpace (hd : isBindable default = true) (h : isBindable name = true)
    (hrest : sourceAfter rest = some source) :
    importAfter (nameAt p default :: .plain .punctuation p' "," :: .plain .operator q "*" ::
        nameAt q' "as" :: nameAt r name :: rest) =
      some (.named [⟨default, none⟩, ⟨"*", some name⟩], source) := by
  apply importAfter_of_bindingClause (by simp) (by simp)
  · simp [withoutTypeModifier, headIs]
  · simp [bindingClause, hasKind_of_isBindable hd, hasKind_of_isBindable h, headIs, afterDefault,
      namespaceBinding]
    rfl
  · exact hrest

end Clauses

theorem importAfter_clause {clause : StatementClause} (h : clause.isPrintable = true)
    (p q : Position) (source : String) (ts : List Token) :
    importAfter (tokensFrom p clause.written ++ .plain .string q ("'" ++ source ++ "'") :: ts) =
      some (clause.imported, source) := by
  cases clause with
  | sideEffect => exact importAfter_sideEffect _ source _
  | defaultName name => exact importAfter_default _ _ _ _ h
  | wholeModule name => exact importAfter_space _ _ _ h (sourceAfter_from _ _ source _)
  | named entries =>
    simp only [StatementClause.written, writtenList, List.cons_append, List.append_assoc,
      tokensFrom, tokensFrom_append]
    exact importAfter_list _ _ (List.all_eq_true.mp h) (sourceAfter_from _ _ source _)
  | defaultAndNamed default entries =>
    simp only [StatementClause.isPrintable, Bool.and_eq_true] at h
    simp only [StatementClause.written, writtenList, List.cons_append, List.append_assoc,
      tokensFrom, tokensFrom_append]
    exact importAfter_defaultAndList _ _ _ _ h.1 (List.all_eq_true.mp h.2)
      (sourceAfter_from _ _ source _)
  | defaultAndWhole default name =>
    simp only [StatementClause.isPrintable, Bool.and_eq_true] at h
    exact importAfter_defaultAndSpace _ _ _ _ _ h.1 h.2 (sourceAfter_from _ _ source _)

/-! ## Statements -/

/-- The imports of printed statements, the first of them on line `n`. -/
def importsFromLine (n : Nat) (statements : List ImportStatement) : List Import :=
  (statements.zipIdx n).map fun (s, line) => ⟨s.clause.imported, s.source, ⟨line, 1⟩⟩

/-- A token that neither begins an import nor ends a clause, and that shows no call and no member
access. -/
structure IsQuiet (t : Token) : Prop where
  not_import : t.is .keyword "import" = false
  not_call : t.isMark "(" = false
  not_access : t.isMark "." = false
  not_end : endsClause t = false

theorem ClausePiece.isQuiet {w : Written} (h : ClausePiece w) (p : Position) :
    IsQuiet (.plain w.kind p w.text) := by
  cases h with
  | @word s blanks hs hne hblanks =>
    change IsQuiet (nameAt p s)
    constructor
    · simp [Token.is, hne]
    · simp
    · simp
    · simp [endsClause]
  | mark hs hblanks =>
    rcases hs with rfl | rfl | rfl <;> constructor <;> rfl
  | star => constructor <;> rfl

theorem isQuiet_clause {clause : StatementClause} (h : clause.isPrintable = true) (p : Position) :
    ∀ t ∈ tokensFrom p clause.written, IsQuiet t := by
  intro t ht
  obtain ⟨w, hw, q, rfl⟩ := exists_of_mem_tokensFrom ht
  exact (clausePiece_of_mem h w hw).isQuiet q

/-- The tokens of a printed statement. -/
theorem tokensFrom_statement {s : ImportStatement} (h : s.isPrintable = true) (p : Position)
    (ws : List Written) :
    ∃ q r r', tokensFrom p (s.written ++ ws) =
      nameAt p "import" :: (tokensFrom q s.clause.written ++
        .plain .string r ("'" ++ s.source ++ "'") :: .plain .punctuation r' ";" ::
          tokensFrom ⟨p.line + 1, 1⟩ ws) := by
  rw [tokensFrom_append, after_statement h, ImportStatement.written]
  simp only [tokensFrom, tokensFrom_append, List.append_assoc, List.cons_append]
  exact ⟨_, _, _, rfl⟩

theorem importAt_eq_none {t : Token} {ts : List Token} (ht : t.is .keyword "import" = false)
    (hts : headIs (·.isMark "(") ts = false) : importAt t ts = none := by
  have hrequired : requiredAfter ts = none := by
    cases ts with
    | nil => rfl
    | cons opener ts =>
      have hopener : opener.isMark "(" = false := by simpa [headIs] using hts
      cases ts <;> simp [requiredAfter, hopener]
  simp [importAt, ht, hrequired]

/-- Tokens without an `import` and without a call have no import of their own. -/
theorem tokenImports_append {ts : List Token} {u : Token} (hts : ∀ t ∈ ts, IsQuiet t)
    (hu : u.is .keyword "import" = false ∧ u.isMark "(" = false) (rest : List Token) :
    tokenImports (ts ++ u :: rest) = tokenImports (u :: rest) := by
  induction ts with
  | nil => rfl
  | cons t ts ih =>
    have hts' : ∀ t' ∈ ts, IsQuiet t' := fun t' ht' => hts t' (List.mem_cons_of_mem t ht')
    have hnext : headIs (·.isMark "(") (ts ++ u :: rest) = false := by
      cases ts with
      | nil => simpa [headIs] using hu.2
      | cons t' ts => simpa [headIs] using (hts' t' List.mem_cons_self).not_call
    rw [List.cons_append, tokenImports,
      importAt_eq_none (hts t List.mem_cons_self).not_import hnext, ih hts']
    rfl

theorem tokenImports_statement {s : ImportStatement} (h : s.isPrintable = true) (p : Position)
    (ws : List Written) :
    tokenImports (tokensFrom p (s.written ++ ws)) =
      ⟨s.clause.imported, s.source, p⟩ :: tokenImports (tokensFrom ⟨p.line + 1, 1⟩ ws) := by
  have hclause := (ImportStatement.isPrintable_iff.mp h).1
  obtain ⟨q, r, r', htokens⟩ := tokensFrom_statement h p ws
  have himport (rest : List Token) : tokenImports (nameAt p "import" :: rest) =
      ((importAfter rest).map fun found => ⟨found.1, found.2, p⟩).toList ++
        tokenImports rest := rfl
  rw [htokens, himport, importAfter_clause hclause,
    tokenImports_append (isQuiet_clause hclause q) ⟨rfl, rfl⟩]
  rfl

theorem tokenImports_printed {statements : List ImportStatement}
    (h : ∀ s ∈ statements, s.isPrintable = true) (n : Nat) :
    tokenImports (tokensFrom ⟨n, 1⟩ (writtenImports statements)) =
      importsFromLine n statements := by
  induction statements generalizing n with
  | nil => rfl
  | cons s statements ih =>
    rw [writtenImports, List.flatMap_cons, tokenImports_statement (h s List.mem_cons_self)]
    have hrest := ih (fun s' hs' => h s' (List.mem_cons_of_mem s hs')) (n + 1)
    rw [Int.natCast_add, writtenImports] at hrest
    rw [importsFromLine, List.zipIdx_cons, List.map_cons]
    exact congrArg _ hrest

end SymbolAtlas.Script
