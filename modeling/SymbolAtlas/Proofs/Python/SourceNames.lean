import SymbolAtlas.Proofs.Python.StatementNames
import SymbolAtlas.Python.SyntaxTree

/-! # Names in sources

Whatever the grammar of blocks and compound statements reads, the names in it are whole words of the
source in their order. So are the names in the syntax tree of a source, and its constructs have the
parts that the grammar lays down for them.
-/

namespace SymbolAtlas.Python.Grammar

open Std.Do Parse

set_option mvcgen.warning false

variable [Source] {s₀ : State}

/-! ## Blocks -/

/-- A parser of statements reads names as whole words in their order. -/
structure ReadsStatements (parse : Demand → Parse (List Tree)) : Prop where
  statement : ∀ after s₀, ⦃fun s => ⌜s = s₀ ∧ Stands true s⌝⦄ parse after
    ⦃⇓? ts s' => ⌜Reads s₀ ts s' ∧ Stands true s'⌝⦄

@[spec]
theorem untilDedent_spec (part : Parse (List Tree)) (after : Demand)
    (hpart : ∀ s₀, ⦃fun s => ⌜s = s₀ ∧ Stands true s⌝⦄ part
      ⦃⇓? ts s' => ⌜Reads s₀ ts s' ∧ Stands true s'⌝⦄) :
    ⦃fun s => ⌜s = s₀ ∧ Stands true s⌝⦄ untilDedent part after
    ⦃⇓? ts s' => ⌜Reads s₀ ts s' ∧ Stands true s'⌝⦄ := by
  have hloop := @loop_spec (List (List Tree) × Bool) fun a s₀ b s =>
    GoesOn a.1.reverse.flatten s₀ b.1.reverse.flatten s ∧ Stands true s
  mvcgen [untilDedent, query, extras, hpart, hloop]
  all_goals grind -ring -linarith

@[spec]
theorem emptyBlock_spec (after : Demand) :
    ⦃fun s => ⌜s = s₀ ∧ Stands false s⌝⦄ emptyBlock after
    ⦃⇓? t s' => ⌜Reads s₀ [t] s' ∧ Stands true s'⌝⦄ := by
  mvcgen [emptyBlock, query]
  all_goals grind -ring -linarith

theorem standsFor_blockOf {ts : List Tree} (place : Cursor) (h : AllFaithful Source.chars ts) :
    (blockOf place ts).StandsFor Source.chars ts := by
  unfold blockOf
  split <;> grind

grind_pattern standsFor_blockOf => AllFaithful Source.chars ts, blockOf place ts

variable {self : Demand → Parse (List Tree)} (hself : ReadsStatements self)

include hself

@[spec]
theorem block_spec (after : Demand) :
    ⦃fun s => ⌜s = s₀ ∧ Stands true s⌝⦄ block self after
    ⦃⇓? t s' => ⌜Reads s₀ [t] s' ∧ Stands true s'⌝⦄ := by
  have hstatement := hself.statement
  mvcgen [block, hstatement]
  all_goals grind -ring -linarith

@[spec]
theorem suite_spec (field : Field) (after : Demand) :
    ⦃fun s => ⌜s = s₀ ∧ Stands false s⌝⦄ suite self field after
    ⦃⇓? ts s' => ⌜Reads s₀ ts s' ∧ (∀ roles own, field ∈ roles → AllPlay roles own ts) ∧
      (∀ lo, turnAfter ts lo = field.after lo) ∧
      (field ≠ .name → AllNamed ts) ∧ Stands true s'⌝⦄ := by
  mvcgen [suite, childAs, child, extras]
  all_goals grind -ring -linarith

@[spec]
theorem plainSuite_spec (after : Demand) :
    ⦃fun s => ⌜s = s₀ ∧ Stands false s⌝⦄ plainSuite self after
    ⦃⇓? ts s' => ⌜Reads s₀ ts s' ∧ Stands true s'⌝⦄ := by
  mvcgen [plainSuite, child, extras]
  all_goals grind -ring -linarith

omit hself in
@[spec]
theorem condition_spec (field : Field) :
    ⦃fun s => ⌜s = s₀ ∧ Stands true s⌝⦄ condition field
    ⦃⇓? ts s' => ⌜Reads s₀ ts s' ∧ Stands false s'⌝⦄ := by
  mvcgen [condition, childAs, child, extras]
  all_goals grind -ring -linarith

@[spec]
theorem elseClause_spec (after : Demand) :
    ⦃fun s => ⌜s = s₀ ∧ Stands false s ∧ s.isAtWord "else" = true⌝⦄ elseClause self after
    ⦃⇓? t s' => ⌜Reads s₀ [t] s' ∧ Stands true s'⌝⦄ := by
  mvcgen [elseClause]
  all_goals grind -ring -linarith

@[spec]
theorem optional_elseClause_spec (after : Demand) :
    ⦃fun s => ⌜s = s₀ ∧ Stands true s⌝⦄ elseClause? self after
    ⦃⇓? ts s' => ⌜Reads s₀ ts s' ∧ Stands true s'⌝⦄ := by
  mvcgen [elseClause?, query, childAs, child, extras]
  all_goals grind -ring -linarith

/-! ## Compound statements -/

@[spec]
theorem ifStatement_spec (after : Demand) :
    ⦃fun s => ⌜s = s₀ ∧ Stands false s ∧ s.isAtWord "if" = true⌝⦄ ifStatement self after
    ⦃⇓? t s' => ⌜Reads s₀ [t] s' ∧ Stands true s'⌝⦄ := by
  have hloop := @loop_spec (List (List Tree)) fun chunks s₀ chunks' s =>
    GoesOn chunks.reverse.flatten s₀ chunks'.reverse.flatten s ∧ Stands true s
  mvcgen [ifStatement, query, childAs, child, extras, hloop]
  all_goals grind -ring -linarith

@[spec]
theorem forStatement_spec (front : List Tree) (after : Demand)
    (hfront : AllFaithful Source.chars front) (hnameless : Nameless front) :
    ⦃fun s => ⌜s = s₀ ∧ Stands false s⌝⦄ forStatement self front after
    ⦃⇓? t s' => ⌜GoesOn front s₀ [t] s' ∧ Stands true s'⌝⦄ := by
  mvcgen [forStatement, childAs, child, extras]
  all_goals grind -ring -linarith

@[spec]
theorem whileStatement_spec (after : Demand) :
    ⦃fun s => ⌜s = s₀ ∧ Stands false s ∧ s.isAtWord "while" = true⌝⦄ whileStatement self after
    ⦃⇓? t s' => ⌜Reads s₀ [t] s' ∧ Stands true s'⌝⦄ := by
  mvcgen [whileStatement]
  all_goals grind -ring -linarith

@[spec]
theorem handlers_spec (isGroup : Bool) (after : Demand) :
    ⦃fun s => ⌜s = s₀ ∧ Stands true s⌝⦄ handlers self isGroup after
    ⦃⇓? ts s' => ⌜Reads s₀ ts s' ∧ Stands true s'⌝⦄ := by
  have hloop := @loop_spec (List (List Tree)) fun chunks s₀ chunks' s =>
    GoesOn chunks.reverse.flatten s₀ chunks'.reverse.flatten s ∧ Stands true s
  have hkind : Kind.exceptGroupClause.isPlain = true ∧ Kind.exceptClause.isPlain = true :=
    ⟨rfl, rfl⟩
  mvcgen [handlers, query, child, extras, hloop]
  all_goals grind -ring -linarith [isMark_openings]

@[spec]
theorem tryStatement_spec (after : Demand) :
    ⦃fun s => ⌜s = s₀ ∧ Stands false s ∧ s.isAtWord "try" = true⌝⦄ tryStatement self after
    ⦃⇓? t s' => ⌜Reads s₀ [t] s' ∧ Stands true s'⌝⦄ := by
  mvcgen [tryStatement, query, require, child, extras]
  all_goals grind -ring -linarith

omit hself in
/-- The item that an expression in a `with` is. -/
theorem standsFor_withItem {ts : List Tree} (h : AllFaithful Source.chars ts) :
    (Tree.node .withClause (ts.map fun t => if t.isNamed && !t.isExtra then
      Tree.node .withItem [t.inField .value] else t)).StandsFor Source.chars ts := by
  suffices hmap : AllFaithful Source.chars (ts.map fun t => if t.isNamed && !t.isExtra then
      Tree.node .withItem [t.inField .value] else t) ∧ ∀ lo, pastAll (ts.map fun t =>
      if t.isNamed && !t.isExtra then Tree.node .withItem [t.inField .value] else t) lo =
        pastAll ts lo by grind
  induction ts with
  | nil => exact ⟨allFaithful_nil, fun _ => rfl⟩
  | cons t ts ih =>
    obtain ⟨ht, hts⟩ := allFaithful_cons.mp h
    obtain ⟨hfaithful, hpast⟩ := ih hts
    rw [List.map_cons]
    split <;> grind

omit hself in
theorem standsFor_withClause {list : Items} (h : AllFaithful Source.chars list.trees) :
    (withClause list).StandsFor Source.chars list.trees := by
  unfold withClause
  split
  · rename_i t _ htrees
    rw [htrees] at h ⊢
    have ht : t.IsFaithful Source.chars := (allFaithful_cons.mp h).1
    dsimp only
    split
    · rename_i htuple
      obtain ⟨hfaithful, hpast⟩ := standsFor_withItem ht.children
      refine ⟨hfaithful, fun lo => (hpast lo).trans ?_⟩
      have hkind : t.kind ≠ .identifier := fun hkind => by simp [hkind] at htuple
      rw [pastAll_singleton, Tree.past_of_kind hkind]
    · exact standsFor_withItem h
  · exact standsFor_withItem h

grind_pattern standsFor_withClause => AllFaithful Source.chars list.trees, withClause list

@[spec]
theorem withStatement_spec (front : List Tree) (after : Demand)
    (hfront : AllFaithful Source.chars front) :
    ⦃fun s => ⌜s = s₀ ∧ Stands false s⌝⦄ withStatement self front after
    ⦃⇓? t s' => ⌜GoesOn front s₀ [t] s' ∧ Stands true s'⌝⦄ := by
  mvcgen [withStatement, child, extras]
  all_goals grind -ring -linarith

/-! ## Definitions -/

omit hself in
@[spec]
theorem typeVariables_spec :
    ⦃fun s => ⌜s = s₀ ∧ Stands true s⌝⦄ typeVariables
    ⦃⇓? ts s' => ⌜Reads s₀ ts s' ∧
      (∀ roles own, Field.typeParameters ∈ roles → AllPlay roles own ts) ∧
      (∀ lo, turnAfter ts lo = lo) ∧ AllNamed ts ∧
      Stands true s'⌝⦄ := by
  mvcgen [typeVariables, query, childAs, child, extras]
  all_goals grind -ring -linarith

omit hself in
@[spec]
theorem functionParameters_spec :
    ⦃fun s => ⌜s = s₀ ∧ Stands false s ∧ s.isAt "(" = true⌝⦄ functionParameters
    ⦃⇓? t s' => ⌜Reads s₀ [t] s' ∧ Stands true s'⌝⦄ := by
  mvcgen [functionParameters, query, child, extras]
  all_goals grind -ring -linarith [isMark_openings]

omit hself in
/-- Looking ahead leaves the state alone. -/
@[spec]
theorem resemblesType_spec :
    ⦃fun s => ⌜s = s₀ ∧ Stands true s⌝⦄ resemblesType
    ⦃⇓? _ s' => ⌜s' = s₀ ∧ Stands true s'⌝⦄ := by
  mvcgen [resemblesType]
  all_goals grind

@[spec]
theorem functionDefinition_spec (front : List Tree) (after : Demand)
    (hfront : AllFaithful Source.chars front) (hnameless : Nameless front)
    (hunplaced : Unplaced front) :
    ⦃fun s => ⌜s = s₀ ∧ Stands false s⌝⦄ functionDefinition self front after
    ⦃⇓? t s' => ⌜GoesOn front s₀ [t] s' ∧ Stands true s'⌝⦄ := by
  have hconstruct := readsWords_anyConstruct.construct
  mvcgen [functionDefinition, query, require, childAs, child, extras, hconstruct]
  all_goals grind -ring -linarith [- List.append_assoc]

@[spec]
theorem classDefinition_spec (after : Demand) :
    ⦃fun s => ⌜s = s₀ ∧ Stands false s ∧ s.isAtWord "class" = true⌝⦄ classDefinition self after
    ⦃⇓? t s' => ⌜Reads s₀ [t] s' ∧ Stands true s'⌝⦄ := by
  mvcgen [classDefinition, query, childAs, child, extras]
  all_goals grind -ring -linarith

@[spec]
theorem asyncStatement_spec (after : Demand) :
    ⦃fun s => ⌜s = s₀ ∧ Stands false s ∧ s.isAtWord "async" = true⌝⦄ asyncStatement self after
    ⦃⇓? t s' => ⌜Reads s₀ [t] s' ∧ Stands true s'⌝⦄ := by
  mvcgen [asyncStatement]
  all_goals grind -ring -linarith

@[spec]
theorem decoratedDefinition_spec (after : Demand) :
    ⦃fun s => ⌜s = s₀ ∧ Stands false s ∧ s.isAt "@" = true⌝⦄ decoratedDefinition self after
    ⦃⇓? t s' => ⌜Reads s₀ [t] s' ∧ Stands true s'⌝⦄ := by
  have hloop := @loop_spec (List (List Tree)) fun chunks s₀ chunks' s =>
    GoesOn chunks.reverse.flatten s₀ chunks'.reverse.flatten s ∧ Stands true s
  have hfunction (s₀ : State) := @functionDefinition_spec _ s₀ self hself
  have hclass (s₀ : State) := @classDefinition_spec _ s₀ self hself
  mvcgen [decoratedDefinition, query, childAs, child, extras, hloop, -functionDefinition_spec,
    -classDefinition_spec, hfunction, hclass]
  all_goals grind -ring -linarith [isMark_openings]

/-! ## The statement `match` -/

@[spec]
theorem caseClause_spec :
    ⦃fun s => ⌜s = s₀ ∧ Stands true s⌝⦄ caseClause self
    ⦃⇓? t s' => ⌜Reads s₀ [t] s' ∧ Stands true s'⌝⦄ := by
  have hconstruct := readsWords_anyConstruct.construct
  mvcgen [caseClause, query, require, childAs, child, extras, hconstruct]
  all_goals grind -ring -linarith

@[spec]
theorem matchStatement_spec (word : Tree) (after : Demand)
    (hword : word.IsFaithful Source.chars) :
    ⦃fun s => ⌜s = s₀ ∧ Stands true s⌝⦄ matchStatement self word after
    ⦃⇓? t s' => ⌜GoesOn [word] s₀ [t] s' ∧ Stands true s'⌝⦄ := by
  mvcgen [matchStatement, childAs, child, extras]
  all_goals grind -ring -linarith

/-! ## Any statement -/

@[spec]
theorem statementStep_spec (after : Demand) :
    ⦃fun s => ⌜s = s₀ ∧ Stands true s⌝⦄ statementStep self after
    ⦃⇓? ts s' => ⌜Reads s₀ ts s' ∧ Stands true s'⌝⦄ := by
  have heither := @either_spec (List Tree) fun s =>
    s = s₀ ∧ Stands true s ∧ s.isAtWord "async" = true
  mvcgen [statementStep, query, heither]
  all_goals grind -ring -linarith

end SymbolAtlas.Python.Grammar

/-! ## Sources -/

namespace SymbolAtlas.Python

open Std.Do Parse

section

variable [Source] {s₀ : State}

namespace Grammar

theorem readsStatements_statementWithin (n : Nat) : ReadsStatements (statementWithin n) := by
  induction n with
  | zero => exact ⟨fun _ _ => triple_iff.mpr fun _ _ _ _ h => (nomatch h)⟩
  | succ n ih => exact ⟨fun after _ => statementStep_spec ih after⟩

/-- The names of any statement are whole words in their order. -/
theorem statement_spec (after : Demand) :
    ⦃fun s => ⌜s = s₀ ∧ Stands true s⌝⦄ statement after
    ⦃⇓? ts s' => ⌜Reads s₀ ts s' ∧ Stands true s'⌝⦄ :=
  triple_iff.mpr fun s =>
    triple_iff.mp ((readsStatements_statementWithin s.fuel).statement after s₀) s

end Grammar

/-- The start of a source is where no word goes on. -/
theorem stands_ofList (demand : Demand) : Stands true (State.ofList Source.chars demand) := by
  have hstart := Cursor.ofList_isIn Source.chars
  unfold State.ofList
  dsimp only
  split
  · rename_i hmark
    obtain ⟨rest, hrest⟩ : ∃ rest, Source.chars = '\ufeff' :: rest :=
      List.head?_eq_some_iff.mp (beq_iff_eq.mp hmark)
    exact stands_look demand _ (hstart.advance 1) allFaithful_nil allExtra_nil fun _ =>
      @isApart_advance _ _ hstart ['\ufeff'] _ hrest (by decide +kernel)
  · exact stands_look demand _ hstart allFaithful_nil allExtra_nil fun _ => rfl

/-- The statements of a source are faithful, and their names are in order. -/
theorem statementsFrom_reads {n : Nat} {chunks : List (List Tree)} {s : State} {ts : List Tree}
    (hchunks : AllFaithful Source.chars chunks.flatten)
    (hpast : pastAll chunks.reverse.flatten 0 ≤ s.stop.offset) (hs : Stands true s)
    (h : statementsFrom n chunks s = .ok ts) :
    AllFaithful Source.chars ts ∧ pastAll ts 0 ≠ ⊤ := by
  induction n generalizing chunks s with
  | zero => cases h
  | succ n ih =>
    rw [statementsFrom] at h
    split at h
    · cases h
      refine ⟨by grind, ne_top_of_le_ne_top (ENat.natCast_ne_top s.stop.offset) (by grind)⟩
    · split at h
      · rename_i read s' hread
        have ⟨hts, hs'⟩ :=
          triple_iff.mp (Grammar.statement_spec atTop) _ read s' ⟨rfl, hs.without_extras⟩ hread
        exact ih (by grind) (by grind) hs' h
      · cases h

end

/-- The nodes of the syntax tree of a source conform to the source and the grammar, and the names in
it are in order. -/
theorem syntaxTree_reads {content : String} {tree : Tree} (h : syntaxTree content = .ok tree) :
    tree.IsFaithful content.toList ∧ tree.past 0 ≠ ⊤ := by
  unfold syntaxTree at h
  dsimp only at h
  split at h
  · cases h
  · split at h
    · rename_i ts hts
      cases h
      let _ : Source := ⟨content.toList⟩
      have ⟨hfaithful, hpast⟩ :=
        statementsFrom_reads allFaithful_nil zero_le (stands_ofList _) hts
      exact ⟨(Tree.isFaithful_node (by decide)).mpr ⟨by grind, hfaithful⟩, hpast⟩
    · cases h

end SymbolAtlas.Python
