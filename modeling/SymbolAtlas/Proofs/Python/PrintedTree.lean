import SymbolAtlas.Proofs.Python.PrintedList
import SymbolAtlas.Proofs.Text.LineIndex
import SymbolAtlas.Python.SyntaxTree

/-! # The syntax tree of printed imports

The grammar reads each printed import statement as one statement that makes the imports that are
printed, and a text of such statements as nothing else.
-/

namespace SymbolAtlas.Python

open Parse Grammar

section statement

variable {fuel : Nat} {start : Cursor} {rest : List Char}

/-! ## Plain imports -/

theorem imports_plainImport {word : Tree} {ts : List Tree} {bs : List Binding}
    (hword : word.kind = .mark) (himports : word.imports = []) (hts : Lists ts bs) :
    (Tree.node .plainImport (word :: ts)).imports =
      bs.map fun b => ⟨.plain [b], b.name, word.position⟩ := by
  have hnamed : (Tree.node .plainImport (word :: ts)).namedChildren = ts.filter Tree.isNamed := by
    rw [Tree.namedChildren]
    change (word :: ts).filter Tree.isNamed = _
    rw [List.filter_cons_of_neg (by rw [Tree.isNamed, hword]; decide)]
  have hhere : (Tree.node .plainImport (word :: ts)).importsHere =
      ((Tree.node .plainImport (word :: ts)).namedChildren.filterMap Tree.binding?).map
        fun b => ⟨.plain [b], b.name, word.position⟩ := rfl
  have hchildren : (word :: ts).flatMap Tree.imports = [] := by
    rw [List.flatMap_eq_nil_iff, List.forall_mem_cons]
    exact ⟨himports, hts.imports_eq⟩
  rw [Tree.imports_eq, hhere, hnamed, hts.bindings_eq]
  exact (congrArg _ hchildren).trans (List.append_nil _)

theorem plainImport_onText (es : Entries) (stop : Cursor) (hfuel : start.rest.length < fuel)
    (hstart : start.rest = importWord.chars ++ ' ' :: (es.chars ++ rest)) (hrest : IsLineEnd rest) :
    ∃ t, plainImport (onText fuel stop start) =
        .ok (t, onLineEnd fuel (start.advance (7 + es.chars.length))) ∧
      t.kind = .plainImport ∧ t.imports = (ImportStatement.plain es).imports start.position := by
  have hlist : (start.advance 7).rest = es.chars ++ rest :=
    rest_advance (importWord.chars ++ [' ']) hstart
  have hfuel' : (start.advance 7).rest.length < fuel := by
    rw [Cursor.advance_rest_length]
    omega
  have hword : take .mark 6 .nothing (onText fuel stop start) =
      .ok (.leaf .mark start (start.advance 6), onText fuel (start.advance 6) (start.advance 7)) :=
    take_spaced fuel stop importWord (Nat.zero_lt_of_lt hfuel) hstart (es.head_isSolid rest)
  obtain ⟨ts, hread, hts⟩ := importList_onText es (start.advance 6) hfuel' hlist hrest
  rw [Cursor.advance_advance] at hread
  refine ⟨.node .plainImport (.leaf .mark start (start.advance 6) :: ts), ?_, rfl,
    imports_plainImport rfl rfl hts⟩
  rw [plainImport, bind_of_ok hword, bind_of_ok hread]
  rfl

/-! ## Modules -/

def dotsStep (dots : List Tree) : Parse (Option (List Tree)) := do
  if ← query (·.isAt ".") then return some ((← mark "." .nothing).reverse ++ dots) else return none

theorem importPrefix_eq :
    importPrefix = do
      let first ← take .mark 1 .nothing
      let dots ← loop [first] dotsStep
      return .node .importPrefix dots.reverse := rfl

/-- The loop reads the dots of a relative module. -/
theorem iterate_dotsStep {n dots : Nat} {stop : Cursor} (hn : dots < n) (hfuel : 0 < fuel)
    (hstop : stop.rest = List.replicate dots '.' ++ rest)
    (hend : (nextFrom fuel .nothing (stop.advance dots)).isAt "." = false)
    {ts : List Tree} (hts : Covers ts.reverse start stop) :
    ∃ ts', iterate dotsStep n ts (nextFrom fuel .nothing stop) =
        .ok (ts', nextFrom fuel .nothing (stop.advance dots)) ∧
      Covers ts'.reverse start (stop.advance dots) := by
  induction dots generalizing n stop ts with
  | zero =>
    obtain ⟨n, rfl⟩ := Nat.exists_eq_add_one_of_ne_zero (Nat.ne_of_gt hn)
    refine ⟨ts, iterate_of_none ?_ n, hts⟩
    rw [dotsStep, bind_query]
    change (if (nextFrom fuel .nothing (stop.advance 0)).isAt "." then _ else _ : Parse _) _ = _
    rw [hend]
    rfl
  | succ dots ih =>
    obtain ⟨n, rfl⟩ := Nat.exists_eq_add_one_of_ne_zero (Nat.ne_zero_of_lt hn)
    have hstop' : stop.rest = ".".toList ++ (List.replicate dots '.' ++ rest) := hstop
    have hstep : dotsStep ts (nextFrom fuel .nothing stop) =
        .ok (some (.leaf .mark stop (stop.advance 1) :: ts),
          nextFrom fuel .nothing (stop.advance 1)) := by
      rw [nextFrom_solid hfuel rfl (by rw [hstop']; rfl), dotsStep, bind_query,
        if_pos (isAt_mark fuel stop "." hstop'), bind_of_ok (mark_onText fuel stop "." hstop' _)]
      rfl
    rw [Nat.add_comm dots 1, ← Cursor.advance_advance] at hend ⊢
    rw [iterate_of_some hstep]
    apply ih (Nat.lt_of_succ_lt_succ hn) (rest_advance ['.'] hstop') hend
    rw [List.reverse_cons]
    exact hts.append (.leaf rfl stop _)

theorem importPrefix_onText (further : Nat) (stop : Cursor) (hfuel : start.rest.length < fuel)
    (hstart : start.rest = '.' :: List.replicate further '.' ++ rest)
    (hend : (nextFrom fuel .nothing (start.advance (1 + further))).isAt "." = false) :
    ∃ t, importPrefix (onText fuel stop start) =
        .ok (t, nextFrom fuel .nothing (start.advance (1 + further))) ∧
      Covers [t] start (start.advance (1 + further)) := by
  have hdots : (start.advance 1).rest = List.replicate further '.' ++ rest :=
    rest_advance ['.'] hstart
  have hcount : further < fuel := by
    rw [hstart] at hfuel
    simp at hfuel
    omega
  have hfirst : Covers [Tree.leaf .mark start (start.advance 1)].reverse start
      (start.advance 1) := .leaf rfl _ _
  rw [← Cursor.advance_advance] at hend ⊢
  obtain ⟨ts, hloop, hts⟩ :=
    iterate_dotsStep hcount (Nat.zero_lt_of_lt hfuel) hdots hend hfirst
  rw [← loop_nextFrom] at hloop
  refine ⟨_, ?_, hts.node .importPrefix rfl⟩
  rw [importPrefix_eq, bind_of_ok (take_eq .mark 1 .nothing (onText fuel stop start))]
  exact bind_of_ok hloop _

theorem mem_pathKeywords {p : ModulePath} :
    String.ofList p.path.first.chars ≠ "import" ∧
      String.ofList p.path.first.chars ≠ "__future__" := by
  have hfree := p.isFree
  simp only [pathKeywords, List.mem_cons, List.not_mem_nil, or_false, not_or] at hfree
  constructor
  · intro h
    exact hfree.1 (String.toList_ofList.symm.trans (congrArg String.toList h))
  · intro h
    exact hfree.2 (String.toList_ofList.symm.trans (congrArg String.toList h))

/-- What follows the module of a printed import. -/
def IsAfterModule (rest : List Char) : Prop :=
  ∃ next, rest = ' ' :: (importWord.chars ++ ' ' :: next) ∧ next.head?.any isSolid = true

/-- The word `import` comes next after the module. -/
theorem nextFrom_afterModule {stop : Cursor} (hfuel : 0 < fuel) (hstop : IsAfterModule stop.rest) :
    nextFrom fuel .nothing stop = onText fuel stop (stop.advance 1) ∧
      (nextFrom fuel .nothing stop).isAt "." = false ∧
      (nextFrom fuel .nothing stop).word = "import" := by
  obtain ⟨next, hstop, hnext⟩ := hstop
  have hword : (stop.advance 1).rest = importWord.chars ++ ' ' :: next :=
    rest_advance [' '] hstop
  have hstate : nextFrom fuel .nothing stop = onText fuel stop (stop.advance 1) :=
    nextFrom_space hfuel rfl hstop (importWord.head_isSolid _)
  refine ⟨hstate, ?_, ?_⟩
  · rw [hstate, isAt_name fuel stop importWord hword rfl]
  · rw [hstate, onText_word fuel stop importWord hword rfl]
    rfl

theorem IsAfterModule.head_all (h : IsAfterModule rest) :
    rest.head?.all (!isWordPart ·) = true := by
  obtain ⟨next, rfl, _⟩ := h
  rfl

/-- The path of a module is read up to `import`. -/
theorem modulePath_onText (p : ModulePath) (stop : Cursor) (hfuel : start.rest.length < fuel)
    (hstart : start.rest = p.path.chars ++ rest) (hrest : IsAfterModule rest) :
    ∃ t, dottedName .nothing (onText fuel stop start) =
        .ok (t, nextFrom fuel .nothing (start.advance p.path.chars.length)) ∧
      t.kind = .dottedName ∧ Covers [t] start (start.advance p.path.chars.length) := by
  have hafter : IsAfterModule (start.advance p.path.chars.length).rest := by
    rwa [rest_advance _ hstart]
  exact dottedName_onText p.path stop hfuel rfl hstart hrest.head_all
    (nextFrom_afterModule (Nat.zero_lt_of_lt hfuel) hafter).2.1

/-- Dots before `import` are a module. -/
theorem relativeImport_dots (further : Nat) (stop : Cursor) (hfuel : start.rest.length < fuel)
    (hstart : start.rest = '.' :: List.replicate further '.' ++ rest)
    (hrest : IsAfterModule rest) :
    ∃ t, relativeImport (onText fuel stop start) =
        .ok (t, nextFrom fuel .nothing (start.advance (1 + further))) ∧
      t.kind = .relativeImport ∧ Covers [t] start (start.advance (1 + further)) := by
  have hafter : IsAfterModule (start.advance (1 + further)).rest := by
    have := rest_advance _ hstart
    rw [List.length_cons, List.length_replicate, Nat.add_comm] at this
    rwa [this]
  obtain ⟨_, hend, hword⟩ := nextFrom_afterModule (Nat.zero_lt_of_lt hfuel) hafter
  obtain ⟨t, hread, ht⟩ := importPrefix_onText further stop hfuel hstart hend
  refine ⟨_, ?_, rfl, ht.node .relativeImport rfl⟩
  rw [relativeImport, bind_of_ok hread, bind_get, State.isAtWord, hword]
  rfl

/-- Dots and a path are a module. -/
theorem relativeImport_path (further : Nat) (p : ModulePath) (stop : Cursor)
    (hfuel : start.rest.length < fuel)
    (hstart : start.rest = '.' :: List.replicate further '.' ++ (p.path.chars ++ rest))
    (hrest : IsAfterModule rest) :
    ∃ t, relativeImport (onText fuel stop start) =
        .ok (t, nextFrom fuel .nothing (start.advance (1 + further + p.path.chars.length))) ∧
      t.kind = .relativeImport ∧
      Covers [t] start (start.advance (1 + further + p.path.chars.length)) := by
  obtain ⟨mid, hmid⟩ : ∃ mid, mid = start.advance (1 + further) := ⟨_, rfl⟩
  have hpath : mid.rest = p.path.chars ++ rest := by
    have := rest_advance _ hstart
    rwa [List.length_cons, List.length_replicate, Nat.add_comm, ← hmid] at this
  have hnext : nextFrom fuel .nothing mid = onText fuel mid mid :=
    nextFrom_solid (Nat.zero_lt_of_lt hfuel) rfl (by rw [hpath]; exact p.path.head_isSolid rest)
  have hend : (nextFrom fuel .nothing mid).isAt "." = false := by
    rw [hnext]
    exact p.path.isAt_onText fuel mid hpath rfl
  have hfuel' : mid.rest.length < fuel := by
    rw [hmid, Cursor.advance_rest_length]
    omega
  -- the path's first name is not `import`, before which a module of dots alone ends
  have hgoesOn :
      ¬ (decide ((onText fuel mid mid).word = "") || (onText fuel mid mid).isAtWord "import") =
        true := by
    rw [State.isAtWord, p.path.word_onText fuel mid hpath hrest.head_all]
    simp [mem_pathKeywords.1, p.path.first.chars_ne_nil]
  rw [← Cursor.advance_advance, ← hmid]
  obtain ⟨t, hread, ht⟩ := importPrefix_onText further stop hfuel hstart (hmid ▸ hend)
  obtain ⟨u, hread', _, hu⟩ := modulePath_onText p mid hfuel' hpath hrest
  rw [← hmid] at hread ht
  rw [hnext] at hread
  refine ⟨_, ?_, rfl, (ht.append hu).node .relativeImport rfl⟩
  rw [relativeImport, bind_of_ok hread, bind_get, if_neg hgoesOn,
    bind_of_ok (child_of_ok hread' rfl)]
  rfl

theorem relativeImport_onText (further : Nat) (path : Option ModulePath) (stop : Cursor)
    (hfuel : start.rest.length < fuel)
    (hstart : start.rest = (ModuleName.relative further path).chars ++ rest)
    (hrest : IsAfterModule rest) :
    ∃ t, relativeImport (onText fuel stop start) =
        .ok (t, nextFrom fuel .nothing
          (start.advance (ModuleName.relative further path).chars.length)) ∧
      t.kind = .relativeImport ∧
      Covers [t] start (start.advance (ModuleName.relative further path).chars.length) := by
  rw [ModuleName.chars, List.append_assoc] at hstart
  have hlength : (ModuleName.relative further path).chars.length =
      1 + further + ((path.map (·.path.chars)).getD []).length := by
    rw [ModuleName.chars, List.length_append, List.length_cons, List.length_replicate,
      Nat.add_comm further]
  rw [hlength]
  cases path with
  | none => exact relativeImport_dots further stop hfuel hstart hrest
  | some p => exact relativeImport_path further p stop hfuel hstart hrest

/-- The module of a printed import is read up to `import`. -/
theorem moduleName_onText (m : ModuleName) (stop : Cursor) (hfuel : start.rest.length < fuel)
    (hstart : start.rest = m.chars ++ rest) (hrest : IsAfterModule rest) :
    (onText fuel stop start).isAtWord "__future__" = false ∧
      ∃ t, (if (onText fuel stop start).isAt "." then relativeImport else dottedName .nothing)
          (onText fuel stop start) =
        .ok (t, nextFrom fuel .nothing (start.advance m.chars.length)) ∧
      t.isModulePath = true ∧ Covers [t] start (start.advance m.chars.length) := by
  cases m with
  | absolute p =>
    obtain ⟨t, hread, hkind, ht⟩ := modulePath_onText p stop hfuel hstart hrest
    refine ⟨?_, t, ?_, ?_, ht⟩
    · rw [State.isAtWord, p.path.word_onText fuel stop hstart hrest.head_all, beq_eq_false_iff_ne]
      exact mem_pathKeywords.2
    · rw [p.path.isAt_onText fuel stop hstart rfl]
      exact hread
    · rw [Tree.isModulePath, hkind]
      rfl
  | relative further path =>
    have hdot : start.rest =
        ".".toList ++ (List.replicate further '.' ++ (path.map (·.path.chars)).getD [] ++ rest) :=
      hstart
    obtain ⟨t, hread, hkind, ht⟩ := relativeImport_onText further path stop hfuel hstart hrest
    refine ⟨?_, t, ?_, ?_, ht⟩
    · have hword : (onText fuel stop start).word = "" := by
        change String.ofList (wordOf start.rest) = ""
        rw [hdot]
        rfl
      rw [State.isAtWord, hword]
      rfl
    · rw [isAt_mark fuel stop "." hdot]
      exact hread
    · rw [Tree.isModulePath, hkind]
      rfl

/-! ## Imports from a module -/

theorem imports_fromImport {word path importMark : Tree} {names : List Tree} {bs : List Binding}
    (hword : word.kind = .mark) (hpath : path.isModulePath = true)
    (himport : importMark.kind = .mark) (hquiet : ∀ t ∈ [word, path, importMark], t.imports = [])
    (hnames : (names.filter Tree.isNamed).filterMap Tree.fromBinding? = bs)
    (hnamesQuiet : ∀ t ∈ names, t.imports = []) :
    (Tree.node .fromImport (word :: path :: importMark :: names)).imports =
      [⟨.fromModule bs, path.text, word.position⟩] := by
  have hpathNamed : path.isNamed = true := by
    rw [Tree.isModulePath, Bool.or_eq_true, beq_iff_eq, beq_iff_eq] at hpath
    rcases hpath with h | h <;> rw [Tree.isNamed, h] <;> rfl
  have hnamed : (Tree.node .fromImport (word :: path :: importMark :: names)).namedChildren =
      path :: names.filter Tree.isNamed := by
    rw [Tree.namedChildren]
    change (word :: path :: importMark :: names).filter Tree.isNamed = _
    rw [List.filter_cons_of_neg (by rw [Tree.isNamed, hword]; decide),
      List.filter_cons_of_pos hpathNamed,
      List.filter_cons_of_neg (by rw [Tree.isNamed, himport]; decide)]
  have hhere : (Tree.node .fromImport (word :: path :: importMark :: names)).importsHere =
      [⟨.fromModule bs, path.text, word.position⟩] := by
    have hdrop : (path :: names.filter Tree.isNamed).dropWhile (fun c => !c.isModulePath) =
        path :: names.filter Tree.isNamed :=
      List.dropWhile_cons_of_neg (by simp [hpath])
    unfold Tree.importsHere
    simp only [hnamed, hdrop, hnames]
    rfl
  have hchildren : (word :: path :: importMark :: names).flatMap Tree.imports = [] := by
    rw [List.flatMap_eq_nil_iff]
    intro t ht
    rcases List.mem_append.mp (show t ∈ [word, path, importMark] ++ names from ht) with h | h
    · exact hquiet t h
    · exact hnamesQuiet t h
  rw [Tree.imports_eq, hhere]
  exact (congrArg _ hchildren).trans (List.append_nil _)

/-- What an import of names lists: a star or entries. -/
def listedNames : Parse (List Tree) := do
  if ← query (·.isAt "*") then token .wildcardImport 1 atEnd else importNames

theorem bind_listedNames {α : Type} (f : List Tree → Parse α) :
    (listedNames >>= f) = query (·.isAt "*") >>= fun isAtStar =>
      if isAtStar then token .wildcardImport 1 atEnd >>= f else importNames >>= f := by
  rw [listedNames, bind_assoc]
  congr
  funext isAtStar
  cases isAtStar <;> rfl

/-- `text`, at the end of a line, is read as what an import of names lists. -/
def ReadsNames (fuel : Nat) (text : List Char) (bs : List Binding) : Prop :=
  ∀ (stop start : Cursor) (rest : List Char), start.rest = text ++ rest → IsLineEnd rest →
    start.rest.length < fuel →
    ∃ ts, listedNames (onText fuel stop start) =
        .ok (ts, onLineEnd fuel (start.advance text.length)) ∧
      (ts.filter Tree.isNamed).filterMap Tree.fromBinding? = bs ∧ ∀ t ∈ ts, t.imports = []

theorem readsNames_entries (fuel : Nat) (es : Entries) : ReadsNames fuel es.chars es.bindings := by
  intro stop start rest hstart hrest hfuel
  obtain ⟨ts, hread, hts⟩ := importList_onText es stop hfuel hstart hrest
  have hat {text : String}
      (htext : text.toList.head?.any (!Identifier.isAsciiWordStart ·) = true) :
      (onText fuel stop start).isAt text = false :=
    es.first.path.isAt_onText fuel stop (hstart.trans (es.chars_append rest)) htext
  refine ⟨ts, ?_, hts.fromBindings_eq, hts.imports_eq⟩
  rw [listedNames, bind_query, hat rfl, importNames]
  change (query (·.isAt "(") >>= _) (onText fuel stop start) = _
  rw [bind_query, hat rfl]
  exact hread

theorem readsNames_wildcard (fuel : Nat) : ReadsNames fuel ['*'] [⟨"*", none⟩] := by
  intro stop start rest hstart hrest hfuel
  have hline : IsLineEnd (start.advance 1).rest := by
    have hstar : (start.advance 1).rest = rest := rest_advance ['*'] hstart
    rwa [hstar]
  refine ⟨[.leaf .wildcardImport start (start.advance 1)], ?_, rfl, ?_⟩
  · rw [listedNames, bind_query, if_pos (isAt_mark fuel stop "*" hstart), token_eq rfl]
    exact congrArg (fun s => Except.ok ([_], s))
      (nextFrom_lineEnd (Nat.zero_lt_of_lt hfuel) rfl hline)
  · intro t ht
    rw [List.mem_singleton.mp ht]
    rfl

/-- What an import of names makes, given the tree of its module. -/
theorem imports_moduleImport {m : ModuleName} {path : Tree} {ts : List Tree} {bs : List Binding}
    {mid mid' stop stop' : Cursor} (hmid : mid.rest = m.chars ++ rest)
    (hpath : path.isModulePath = true) (hcovers : Covers [path] mid (mid.advance m.chars.length))
    (hbindings : (ts.filter Tree.isNamed).filterMap Tree.fromBinding? = bs)
    (hquiet : ∀ t ∈ ts, t.imports = []) :
    (Tree.node .fromImport (.leaf .mark start stop' :: path.inField .moduleName ::
        .leaf .mark mid' stop :: ts)).imports =
      [⟨.fromModule bs, String.ofList m.chars, start.position⟩] := by
  have htext : (path.inField .moduleName).text = String.ofList m.chars := hcovers.text_eq hmid
  have hpathQuiet : (path.inField .moduleName).imports = [] :=
    (Tree.imports_inField .moduleName path).trans (hcovers.imports_eq path List.mem_cons_self)
  have hmark (c d : Cursor) : (Tree.leaf .mark c d).imports = [] := Tree.imports_leaf rfl c d
  have himports := @imports_fromImport (.leaf .mark start stop') (path.inField .moduleName)
    (.leaf .mark mid' stop) ts bs rfl hpath rfl (by simp [hpathQuiet, hmark]) hbindings hquiet
  rw [htext] at himports
  exact himports

theorem fromImport_onText (m : ModuleName) {text : List Char} {bs : List Binding} (stop : Cursor)
    (hnames : ReadsNames fuel text bs) (htext : text.head?.any isSolid = true)
    (hfuel : start.rest.length < fuel)
    (hstart : start.rest = fromWord.chars ++
      ' ' :: (m.chars ++ ' ' :: (importWord.chars ++ ' ' :: (text ++ rest))))
    (hrest : IsLineEnd rest) :
    ∃ t, fromImport (onText fuel stop start) =
        .ok (t, onLineEnd fuel (start.advance (13 + m.chars.length + text.length))) ∧
      t.kind = .fromImport ∧
      t.imports = [⟨.fromModule bs, String.ofList m.chars, start.position⟩] := by
  have hpos := Nat.zero_lt_of_lt hfuel
  have htext' : (text ++ rest).head?.any isSolid = true := by
    cases text with
    | nil => cases htext
    | cons _ _ => exact htext
  have hafter : IsAfterModule (' ' :: (importWord.chars ++ ' ' :: (text ++ rest))) :=
    ⟨text ++ rest, rfl, htext'⟩
  have hmodule : (start.advance 5).rest =
      m.chars ++ ' ' :: (importWord.chars ++ ' ' :: (text ++ rest)) :=
    rest_advance (fromWord.chars ++ [' ']) hstart
  have hword : take .mark 4 .nothing (onText fuel stop start) =
      .ok (.leaf .mark start (start.advance 4), onText fuel (start.advance 4) (start.advance 5)) :=
    take_spaced fuel stop fromWord hpos hstart (m.head_isSolid _)
  have hbound (n : Nat) : (start.advance n).rest.length < fuel := by
    rw [Cursor.advance_rest_length]
    omega
  obtain ⟨hfuture, path, hread, hpath, hcovers⟩ :=
    moduleName_onText m (start.advance 4) (hbound 5) hmodule hafter
  have himportAt := rest_advance _ hmodule
  obtain ⟨⟨a, b, himport⟩, hlistAt⟩ := keyword_spaced fuel
    ((start.advance 5).advance m.chars.length) importWord "import" rfl hpos himportAt htext'
  rw [(nextFrom_afterModule hpos (by rw [himportAt]; exact hafter)).1] at hread
  simp only [Cursor.advance_advance] at hread himport hlistAt
  obtain ⟨ts, hlist, hbindings, hquiet⟩ := hnames _ _ rest hlistAt hrest (hbound _)
  have hlength : 5 + m.chars.length + (1 + importWord.chars.length + 1) =
      13 + m.chars.length := by
    simp [importWord]
    omega
  rw [Cursor.advance_advance, hlength] at hlist
  refine ⟨.node .fromImport (.leaf .mark start (start.advance 4) :: path.inField .moduleName ::
    .leaf .mark a b :: ts), ?_, rfl,
    imports_moduleImport hmodule hpath hcovers hbindings hquiet⟩
  rw [fromImport, bind_of_ok hword, bind_get, if_neg (by rw [hfuture]; decide),
    bind_of_ok (childAs_of_ok hread rfl .moduleName), bind_of_ok himport, hlength]
  refine (congrFun (bind_listedNames _).symm _).trans ?_
  rw [bind_of_ok hlist]
  rfl

/-! ## Statements -/

/-- The word that begins a statement. -/
def ImportStatement.word : ImportStatement → Name
  | plain _ => importWord
  | listed _ _ | wildcard _ => fromWord

theorem ImportStatement.exists_chars (s : ImportStatement) :
    ∃ tail, s.chars = s.word.chars ++ ' ' :: tail := by
  cases s with
  | plain entries => exact ⟨_, rfl⟩
  | listed module entries => exact ⟨_, rfl⟩
  | wildcard module => exact ⟨_, rfl⟩

theorem simpleStatement_import {s : State} (h : s.word = "import") :
    simpleStatement s = plainImport s := by
  rw [simpleStatement, bind_get, h]
  rfl

theorem simpleStatement_from {s : State} (h : s.word = "from") :
    simpleStatement s = fromImport s := by
  rw [simpleStatement, bind_get, h]
  rfl

/-- Each statement is read as one that makes its imports. -/
theorem simpleStatement_onText (s : ImportStatement) (stop : Cursor)
    (hfuel : start.rest.length < fuel) (hstart : start.rest = s.chars ++ rest)
    (hrest : IsLineEnd rest) :
    ∃ t, simpleStatement (onText fuel stop start) =
        .ok (t, onLineEnd fuel (start.advance s.chars.length)) ∧
      (t.kind = .plainImport ∨ t.kind = .fromImport) ∧ t.imports = s.imports start.position := by
  have hword : (onText fuel stop start).word = String.ofList s.word.chars := by
    obtain ⟨tail, hs⟩ := s.exists_chars
    rw [hs, List.append_assoc] at hstart
    exact onText_word fuel stop s.word hstart rfl
  -- The text of an import from a module, bracketed as it is read.
  have hfrom (m : ModuleName) (text : List Char) :
      fromWord.chars ++ ' ' :: (m.chars ++ ' ' :: (importWord.chars ++ ' ' :: text)) ++ rest =
        fromWord.chars ++ ' ' :: (m.chars ++ ' ' ::
          (importWord.chars ++ ' ' :: (text ++ rest))) := by
    simp only [List.append_assoc, List.cons_append]
  cases s with
  | plain entries =>
    have hlength : (importWord.chars ++ ' ' :: entries.chars).length =
        7 + entries.chars.length := by
      rw [List.length_append, List.length_cons, Nat.add_comm entries.chars.length,
        ← Nat.add_assoc]
      rfl
    rw [ImportStatement.chars, List.append_assoc] at hstart
    obtain ⟨t, hread, hkind, himports⟩ := plainImport_onText entries stop hfuel hstart hrest
    refine ⟨t, ?_, .inl hkind, himports⟩
    rw [simpleStatement_import hword, ImportStatement.chars, hlength]
    exact hread
  | listed module entries =>
    have hsolid : entries.chars.head?.any isSolid = true := by
      have := entries.head_isSolid []
      rwa [List.append_nil] at this
    rw [ImportStatement.chars, hfrom] at hstart
    obtain ⟨t, hread, hkind, himports⟩ := fromImport_onText module stop
      (readsNames_entries fuel entries) hsolid hfuel hstart hrest
    refine ⟨t, ?_, .inr hkind, himports⟩
    rw [simpleStatement_from hword, ImportStatement.chars, length_moduleImport]
    exact hread
  | wildcard module =>
    rw [ImportStatement.chars, hfrom module ['*']] at hstart
    obtain ⟨t, hread, hkind, himports⟩ := fromImport_onText module stop
      (readsNames_wildcard fuel) rfl hfuel hstart hrest
    refine ⟨t, ?_, .inr hkind, himports⟩
    rw [simpleStatement_from hword, ImportStatement.chars, length_moduleImport module ['*']]
    exact hread

/-- A statement of its own line is all that is read there. -/
theorem statement_onText (s : ImportStatement) (stop : Cursor) (hfuel : start.rest.length < fuel)
    (hstart : start.rest = s.chars ++ rest) (hrest : IsLineEnd rest) :
    ∃ t, statement atTop (onText fuel stop start) =
        .ok ([t], (onLineEnd fuel (start.advance s.chars.length)).look atTop fuel) ∧
      (t.kind = .plainImport ∨ t.kind = .fromImport) ∧ t.imports = s.imports start.position := by
  obtain ⟨t, hread, hkind, himports⟩ := simpleStatement_onText s stop hfuel hstart hrest
  obtain ⟨n, rfl⟩ := Nat.exists_eq_add_one_of_ne_zero (Nat.ne_zero_of_lt hfuel)
  obtain ⟨tail, hs⟩ := s.exists_chars
  rw [hs, List.append_assoc] at hstart
  have hword := onText_word (n + 1) stop s.word hstart rfl
  have hat : (onText (n + 1) stop start).isAt "@" = false :=
    isAt_name (n + 1) stop s.word hstart rfl
  have hline : simpleStatements atTop (onText (n + 1) stop start) =
      .ok ([t], (onLineEnd (n + 1) (start.advance s.chars.length)).look atTop (n + 1)) := by
    rw [simpleStatements, bind_of_ok (child_of_ok hread rfl)]
    rfl
  refine ⟨t, ?_, hkind, himports⟩
  change statementStep (statementWithin n) atTop (onText (n + 1) stop start) = _
  rw [statementStep, bind_get, hat, hword, ← hline]
  cases s <;> rfl

end statement

/-! ## Texts -/

/-- A tree of an import statement. -/
def IsImport (t : Tree) : Prop := t.kind = .plainImport ∨ t.kind = .fromImport

theorem importText_head (isEnded : Bool) (s : ImportStatement) (statements : List ImportStatement) :
    ∃ c cs, importText isEnded (s :: statements) = c :: cs ∧ isSolid c = true ∧
      Opening.read (c :: cs) = none := by
  cases s with
  | plain entries => exact ⟨_, _, rfl, rfl, rfl⟩
  | listed module entries => exact ⟨_, _, rfl, rfl, rfl⟩
  | wildcard module => exact ⟨_, _, rfl, rfl, rfl⟩

theorem isLineEnd_afterStatement (isEnded : Bool) (statements : List ImportStatement) :
    IsLineEnd (afterStatement isEnded (importText isEnded statements)) := by
  cases statements with
  | nil =>
    cases isEnded with
    | false => exact .inl rfl
    | true => exact .inr ⟨[], rfl, rfl⟩
  | cons s statements =>
    obtain ⟨c, cs, htext, hc, _⟩ := importText_head isEnded s statements
    rw [afterStatement, htext]
    exact .inr ⟨c :: cs, by simp, hc⟩

section text

variable {fuel : Nat} {stop : Cursor} {isEnded : Bool}

/-- After the last statement the source ends. -/
theorem look_afterLast (hfuel : 0 < fuel) (hstop : stop.rest = afterStatement isEnded []) :
    ((onLineEnd fuel stop).look atTop fuel).ahead = .finish ∧
      ((onLineEnd fuel stop).look atTop fuel).extras = [] := by
  obtain ⟨n, rfl⟩ := Nat.exists_eq_add_one_of_ne_zero (Nat.ne_of_gt hfuel)
  have hrest : stop.rest = [] ∨ stop.rest = ['\n'] := by
    rw [hstop]
    cases isEnded with
    | false => exact .inl rfl
    | true => exact .inr rfl
  have hlook := @State.look_finish (onLineEnd (n + 1) stop) atTop n rfl hrest rfl
  rw [hlook]
  exact ⟨rfl, rfl⟩

/-- After any other statement the next line follows. -/
theorem look_afterStatement {s : ImportStatement} {statements : List ImportStatement}
    (hfuel : 0 < fuel)
    (hstop : stop.rest = afterStatement isEnded (importText isEnded (s :: statements))) :
    (onLineEnd fuel stop).look atTop fuel = onText fuel stop (stop.advance 1) ∧
      stop.rest = '\n' :: importText isEnded (s :: statements) := by
  obtain ⟨n, rfl⟩ := Nat.exists_eq_add_one_of_ne_zero (Nat.ne_of_gt hfuel)
  obtain ⟨c, cs, htext, hc, hopening⟩ := importText_head isEnded s statements
  have hrest : stop.rest = '\n' :: c :: cs := by
    rw [hstop, htext, afterStatement]
    simp
  rw [htext]
  exact ⟨@State.look_nextLine (onLineEnd (n + 1) stop) cs c atTop n rfl hrest hc rfl hopening,
    hrest⟩

theorem statementsFrom_finish {s : State} (hahead : s.ahead = .finish) (hextras : s.extras = [])
    (n : Nat) (chunks : List (List Tree)) :
    statementsFrom (n + 1) chunks s = .ok chunks.reverse.flatten := by
  rw [statementsFrom, hahead, hextras]
  simp

theorem statementsFrom_step {start : Cursor} {t : Tree} {s' : State}
    (h : statement atTop (onText fuel stop start) = .ok ([t], s')) (n : Nat)
    (chunks : List (List Tree)) :
    statementsFrom (n + 1) chunks (onText fuel stop start) =
      statementsFrom n ([t] :: [] :: chunks) s' := by
  have hstate : { onText fuel stop start with extras := [] } = onText fuel stop start := rfl
  rw [statementsFrom]
  simp only [hstate, h]
  rfl

/-- The statements of a text are read one after another, each from the start of its line. -/
theorem statementsFrom_onText {start : Cursor} {s : ImportStatement}
    {statements : List ImportStatement} {n : Nat} {line : Int} {chunks : List (List Tree)}
    (hn : statements.length + 1 < n) (hfuel : start.rest.length < fuel)
    (hstart : start.rest = importText isEnded (s :: statements))
    (hposition : start.position = ⟨line, 1⟩) :
    ∃ ts, statementsFrom n chunks (onText fuel stop start) = .ok (chunks.reverse.flatten ++ ts) ∧
      (∀ t ∈ ts, IsImport t) ∧ ts.flatMap Tree.imports = importsFrom line (s :: statements) := by
  induction statements generalizing s start stop n line chunks with
  | nil =>
    obtain ⟨n, rfl⟩ := Nat.exists_eq_add_one_of_ne_zero (Nat.ne_zero_of_lt hn)
    obtain ⟨n, rfl⟩ := Nat.exists_eq_add_one_of_ne_zero
      (Nat.ne_zero_of_lt (Nat.lt_of_succ_lt_succ hn))
    obtain ⟨t, hread, hkind, himports⟩ :=
      statement_onText s stop hfuel hstart (isLineEnd_afterStatement isEnded [])
    obtain ⟨hahead, hextras⟩ :=
      look_afterLast (Nat.zero_lt_of_lt hfuel) (rest_advance s.chars hstart)
    refine ⟨[t], ?_, ?_, ?_⟩
    · rw [statementsFrom_step hread, statementsFrom_finish hahead hextras]
      simp
    · intro u hu
      rw [List.mem_singleton.mp hu]
      exact hkind
    · rw [List.flatMap_cons, himports, hposition]
      rfl
  | cons next statements ih =>
    obtain ⟨n, rfl⟩ := Nat.exists_eq_add_one_of_ne_zero (Nat.ne_zero_of_lt hn)
    obtain ⟨t, hread, hkind, himports⟩ :=
      statement_onText s stop hfuel hstart (isLineEnd_afterStatement isEnded (next :: statements))
    obtain ⟨hlook, hrest⟩ :=
      look_afterStatement (Nat.zero_lt_of_lt hfuel) (rest_advance s.chars hstart)
    have hnext : ((start.advance s.chars.length).advance 1).rest =
        importText isEnded (next :: statements) := rest_advance ['\n'] hrest
    have hnextPosition : ((start.advance s.chars.length).advance 1).position = ⟨line + 1, 1⟩ := by
      rw [Cursor.advance_position, Cursor.advance_position, hrest, hstart, importText,
        List.take_left, hposition]
      exact Position.after_lineFeed (lineFeed_not_mem s) _
    have hfuel' : ((start.advance s.chars.length).advance 1).rest.length < fuel := by
      rw [Cursor.advance_rest_length, Cursor.advance_rest_length]
      omega
    obtain ⟨ts, hrun, hkinds, hts⟩ :=
      ih (Nat.lt_of_succ_lt_succ hn) hfuel' hnext hnextPosition
    refine ⟨t :: ts, ?_, ?_, ?_⟩
    · rw [statementsFrom_step hread, hlook, hrun]
      simp
    · exact List.forall_mem_cons.mpr ⟨hkind, hkinds⟩
    · rw [List.flatMap_cons, himports, hts, hposition]
      rfl

theorem length_le_importText (isEnded : Bool) (statements : List ImportStatement) :
    statements.length ≤ (importText isEnded statements).length := by
  induction statements with
  | nil => exact Nat.le_refl 0
  | cons s statements ih =>
    obtain ⟨c, cs, hs, _⟩ := s.exists_cons
    cases statements with
    | nil => simp [importText, hs]
    | cons next statements =>
      obtain ⟨d, ds, htext, _⟩ := importText_head isEnded next statements
      rw [importText, hs, afterStatement]
      rw [htext] at ih ⊢
      simp at ih ⊢
      omega

/-- A text of import statements is read as these statements and nothing else. -/
theorem statements_importText (isEnded : Bool) (statements : List ImportStatement) :
    ∃ ts, Python.statements (importText isEnded statements) = .ok ts ∧ (∀ t ∈ ts, IsImport t) ∧
      ts.flatMap Tree.imports = importsFrom 1 statements := by
  cases statements with
  | nil => exact ⟨[], rfl, by simp, rfl⟩
  | cons s statements =>
    obtain ⟨c, cs, htext, hc, hopening⟩ := importText_head isEnded s statements
    have hmark : (some c == some '\ufeff') = false := by
      rw [beq_eq_false_iff_ne]
      rintro ⟨⟩
      revert hc
      decide
    have hlength := length_le_importText isEnded (s :: statements)
    rw [List.length_cons] at hlength
    obtain ⟨fuel, hfuel⟩ : ∃ fuel,
        fuel = 8 * (importText isEnded (s :: statements)).length + 64 := ⟨_, rfl⟩
    have hstate : State.ofList (importText isEnded (s :: statements)) atTop =
        onText fuel (.ofList (importText isEnded (s :: statements)))
          (.ofList (importText isEnded (s :: statements))) := by
      rw [hfuel, htext, State.ofList, List.head?_cons, hmark]
      exact @State.look_spaces _ [] cs c atTop _ (fun _ => hopening) rfl (by simp) hc
    have hbound : (Cursor.ofList (importText isEnded (s :: statements))).rest.length < fuel := by
      simp only [Cursor.ofList]
      omega
    obtain ⟨ts, hread, hkinds, himports⟩ := @statementsFrom_onText fuel
      (.ofList (importText isEnded (s :: statements))) isEnded _ s statements fuel 1 []
      (by omega) hbound rfl rfl
    refine ⟨ts, ?_, hkinds, himports⟩
    rw [Python.statements, hstate]
    exact hread

end text

end SymbolAtlas.Python
