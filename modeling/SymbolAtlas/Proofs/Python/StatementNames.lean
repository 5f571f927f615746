import SymbolAtlas.Proofs.Python.ConstructNames
import SymbolAtlas.Proofs.Python.PathReading
import SymbolAtlas.Python.Grammar.SimpleStatement

/-! # Names in simple statements

Whatever the grammar of simple statements reads, the names in it are whole words of the source in
their order. What an import lists or names is a module path.
-/

namespace SymbolAtlas.Python

namespace Tree

variable {kind : Kind} {ts : List Tree}

@[grind norm]
theorem node_children : (node kind ts).children = ts := rfl

end Tree

/-- A construct with its parts is read as they are. -/
theorem Reads.construct [Source] {t : Tree} {s s' : State} (h : Reads s t.children s')
    (hkind : t.kind ≠ .identifier) (hparts : HasParts t.kind t.children) : Reads s [t] s' where
  faithful := allFaithful_cons.mpr
    ⟨(Tree.isFaithful_of_kind hkind).mpr ⟨hparts, h.faithful⟩, allFaithful_nil⟩
  past_le := by
    rw [pastAll_singleton, Tree.past_of_kind hkind]
    exact h.past_le

namespace Grammar

open Std.Do Parse

set_option mvcgen.warning false

variable [Source] {s₀ : State}

/-! ## Expressions on a line -/

@[spec]
theorem lineExpression_spec :
    ⦃fun s => ⌜s = s₀ ∧ Stands true s⌝⦄ lineExpression
    ⦃⇓? t s' => ⌜Reads s₀ [t] s' ∧ t.IsLoose ∧ Stands false s'⌝⦄ :=
  expression_spec readsWords_anyConstruct .statement

@[spec]
theorem lineExpressions_spec :
    ⦃fun s => ⌜s = s₀ ∧ Stands true s⌝⦄ lineExpressions
    ⦃⇓? t s' => ⌜Reads s₀ [t] s' ∧ Stands false s'⌝⦄ :=
  expressions_spec readsWords_anyConstruct .statement

@[spec]
theorem strictList_spec :
    ⦃fun s => ⌜s = s₀ ∧ Stands true s⌝⦄ strictList
    ⦃⇓? ts s' => ⌜Reads s₀ ts s' ∧ Stands false s'⌝⦄ := by
  mvcgen [strictList, child, extras]
  all_goals grind -ring -linarith

/-! ## Imports -/

@[spec]
theorem importPrefix_spec :
    ⦃fun s => ⌜s = s₀ ∧ Stands false s ∧ s.isAt "." = true⌝⦄ importPrefix
    ⦃⇓? t s' => ⌜Reads s₀ [t] s' ∧ Stands true s'⌝⦄ := by
  have hloop := @loop_spec (List Tree) fun _ s₀ ts s => Passes s₀ ts s ∧ Stands true s
  mvcgen [importPrefix, query, hloop]
  all_goals grind -ring -linarith [isMark_openings]

@[spec]
theorem relativeImport_spec :
    ⦃fun s => ⌜s = s₀ ∧ Stands false s ∧ s.isAt "." = true⌝⦄ relativeImport
    ⦃⇓? t s' => ⌜Reads s₀ [t] s' ∧ Stands true s'⌝⦄ := by
  mvcgen [relativeImport, child, extras]
  all_goals grind -ring -linarith

@[spec]
theorem importedName_spec (after : Demand) :
    ⦃fun s => ⌜s = s₀ ∧ Stands true s⌝⦄ importedName after
    ⦃⇓? t s' => ⌜Reads s₀ [t] s' ∧ Stands true s'⌝⦄ := by
  mvcgen [importedName, query, childAs, child, extras]
  all_goals grind -ring -linarith

@[spec]
theorem importList_spec (after : Demand) :
    ⦃fun s => ⌜s = s₀ ∧ Stands true s⌝⦄ importList after
    ⦃⇓? ts s' => ⌜Reads s₀ ts s' ∧ Stands false s'⌝⦄ := by
  mvcgen [importList, childAs, child, extras]
  all_goals grind -ring -linarith

@[spec]
theorem importNames_spec :
    ⦃fun s => ⌜s = s₀ ∧ Stands true s⌝⦄ importNames
    ⦃⇓? ts s' => ⌜Reads s₀ ts s' ∧ Stands false s'⌝⦄ := by
  mvcgen [importNames, query]
  all_goals grind -ring -linarith

/-! An import is read as names are, and as paths are. -/

@[spec]
theorem plainImport_spec :
    ⦃fun s => ⌜s = s₀ ∧ Stands false s ∧ s.isAtWord "import" = true⌝⦄ plainImport
    ⦃⇓? t s' => ⌜Reads s₀ [t] s' ∧ Stands false s'⌝⦄ := by
  have hnames : ⦃fun s => ⌜s = s₀ ∧ Stands false s ∧ s.isAtWord "import" = true⌝⦄ plainImport
      ⦃⇓? t s' => ⌜t.kind = .plainImport ∧ Reads s₀ t.children s' ∧ Stands false s'⌝⦄ := by
    mvcgen [plainImport]
    all_goals grind -ring -linarith
  refine triple_iff.mpr fun s t s' hs hrun => ?_
  obtain ⟨hkind, hreads, hs'⟩ := triple_iff.mp hnames s t s' hs hrun
  have hlisted := triple_iff.mp plainImport_listed s t s' trivial hrun
  exact ⟨hreads.construct (by simp [hkind]) (by grind), hs'⟩

@[spec]
theorem fromImport_spec :
    ⦃fun s => ⌜s = s₀ ∧ Stands false s ∧ s.isAtWord "from" = true⌝⦄ fromImport
    ⦃⇓? t s' => ⌜Reads s₀ [t] s' ∧ Stands false s'⌝⦄ := by
  have hnames : ⦃fun s => ⌜s = s₀ ∧ Stands false s ∧ s.isAtWord "from" = true⌝⦄ fromImport
      ⦃⇓? t s' => ⌜(t.kind = .fromImport ∨ t.kind = .futureImport) ∧ Reads s₀ t.children s' ∧
        Stands false s'⌝⦄ := by
    mvcgen [fromImport, query, childAs, child, extras]
    all_goals grind -ring -linarith
  refine triple_iff.mpr fun s t s' hs hrun => ?_
  obtain ⟨hkind, hreads, hs'⟩ := triple_iff.mp hnames s t s' hs hrun
  have hpath := triple_iff.mp fromImport_leadsToPath s t s' trivial hrun
  rcases hkind with hkind | hkind
  · exact ⟨hreads.construct (by simp [hkind]) (by grind), hs'⟩
  · refine ⟨hreads.construct (by simp [hkind]) ?_, hs'⟩
    rw [hkind]
    exact hasParts_of_isPlain rfl

/-! ## Other simple statements -/

@[spec]
theorem keywordStatement_spec (kind : Kind) (word : String) (hkind : kind.isPlain = true)
    (hword : word ≠ "") :
    ⦃fun s => ⌜s = s₀ ∧ Stands false s ∧ s.isAtWord word = true⌝⦄ keywordStatement kind word
    ⦃⇓? t s' => ⌜Reads s₀ [t] s' ∧ Stands false s'⌝⦄ := by
  mvcgen [keywordStatement]
  all_goals grind -ring -linarith [takesWhole_of_isAtWord]

@[spec]
theorem namesStatement_spec (kind : Kind) (word : String) (hkind : kind.isPlain = true)
    (hword : word ≠ "") :
    ⦃fun s => ⌜s = s₀ ∧ Stands false s ∧ s.isAtWord word = true⌝⦄ namesStatement kind word
    ⦃⇓? t s' => ⌜Reads s₀ [t] s' ∧ Stands false s'⌝⦄ := by
  mvcgen [namesStatement, child, extras]
  all_goals grind -ring -linarith [takesWhole_of_isAtWord]

@[spec]
theorem returnStatement_spec :
    ⦃fun s => ⌜s = s₀ ∧ Stands false s ∧ s.isAtWord "return" = true⌝⦄ returnStatement
    ⦃⇓? t s' => ⌜Reads s₀ [t] s' ∧ Stands false s'⌝⦄ := by
  mvcgen [returnStatement, query, child, extras]
  all_goals grind -ring -linarith

@[spec]
theorem raiseStatement_spec :
    ⦃fun s => ⌜s = s₀ ∧ Stands false s ∧ s.isAtWord "raise" = true⌝⦄ raiseStatement
    ⦃⇓? t s' => ⌜Reads s₀ [t] s' ∧ Stands false s'⌝⦄ := by
  mvcgen [raiseStatement, query, childAs, child, extras]
  all_goals grind -ring -linarith

@[spec]
theorem expressionStatement_spec :
    ⦃fun s => ⌜s = s₀ ∧ Stands true s⌝⦄ expressionStatement
    ⦃⇓? t s' => ⌜Reads s₀ [t] s' ∧ Stands false s'⌝⦄ := by
  mvcgen [expressionStatement, query]
  all_goals grind -ring -linarith

@[spec]
theorem printStatement_spec :
    ⦃fun s => ⌜s = s₀ ∧ Stands true s ∧ s.isAtWord "print" = true⌝⦄ printStatement
    ⦃⇓? t s' => ⌜Reads s₀ [t] s' ∧ Stands false s'⌝⦄ := by
  have heither := @either_spec Tree fun s =>
    s = s₀ ∧ Stands true s ∧ s.isAtWord "print" = true
  mvcgen [printStatement, complete, query, require, childAs, child, extras, heither]
  all_goals grind -ring -linarith [isMark_openings]

@[spec]
theorem execStatement_spec :
    ⦃fun s => ⌜s = s₀ ∧ Stands true s ∧ s.isAtWord "exec" = true⌝⦄ execStatement
    ⦃⇓? t s' => ⌜Reads s₀ [t] s' ∧ Stands false s'⌝⦄ := by
  mvcgen [execStatement, query, childAs, child, extras]
  all_goals grind -ring -linarith

@[spec]
theorem typeStatement_spec :
    ⦃fun s => ⌜s = s₀ ∧ Stands true s ∧ s.isAtWord "type" = true⌝⦄ typeStatement
    ⦃⇓? t s' => ⌜Reads s₀ [t] s' ∧ Stands false s'⌝⦄ := by
  have heither := @either_spec Tree fun s =>
    s = s₀ ∧ Stands true s ∧ s.isAtWord "type" = true
  have hconstruct := readsWords_anyConstruct.construct
  mvcgen [typeStatement, complete, query, require, child, extras, heither, hconstruct]
  all_goals grind -ring -linarith

@[spec]
theorem simpleStatement_spec :
    ⦃fun s => ⌜s = s₀ ∧ Stands true s⌝⦄ simpleStatement
    ⦃⇓? t s' => ⌜Reads s₀ [t] s' ∧ Stands false s'⌝⦄ := by
  mvcgen [simpleStatement, child, extras]
  all_goals grind -ring -linarith

@[spec]
theorem simpleStatements_spec (after : Demand) :
    ⦃fun s => ⌜s = s₀ ∧ Stands true s⌝⦄ simpleStatements after
    ⦃⇓? ts s' => ⌜Reads s₀ ts s' ∧ Stands true s'⌝⦄ := by
  have hloop := @loop_spec (List (List Tree) × Bool) fun a s₀ b s =>
    GoesOn a.1.reverse.flatten s₀ b.1.reverse.flatten s ∧ Stands false s
  mvcgen [simpleStatements, query, child, extras, hloop]
  all_goals grind -ring -linarith

end Grammar

end SymbolAtlas.Python
