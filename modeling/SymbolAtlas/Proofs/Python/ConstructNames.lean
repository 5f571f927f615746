import SymbolAtlas.Proofs.Python.ExpressionNames
import SymbolAtlas.Python.Grammar.Assignment

/-! # Names in constructs

Whatever the grammar of types, patterns and assignments reads, the names in it are whole words of
the source in their order. With that, one step into a construct reads names so if the parser of the
parts does, and so does the parser of any construct.
-/

namespace SymbolAtlas.Python.Grammar

open Std.Do Parse

set_option mvcgen.warning false

variable [Source] {s₀ : State} {self : Goal → Parse Tree} (hself : ReadsWords self)

include hself

/-! ## Types -/

@[spec]
theorem typeParameters_spec (after : Demand) :
    ⦃fun s => ⌜s = s₀ ∧ Stands false s ∧ s.isAt "[" = true⌝⦄ typeParameters self after
    ⦃⇓? t s' => ⌜Reads s₀ [t] s' ∧ Stands true s'⌝⦄ := by
  have hconstruct := hself.construct
  mvcgen [typeParameters, child, extras, hconstruct]
  all_goals grind -ring -linarith [isMark_openings]

omit hself in
@[spec]
theorem starredName_spec (ctx : Context) :
    ⦃fun s => ⌜s = s₀ ∧ Stands true s ∧ s.isAt "*" = true⌝⦄ starredName? ctx
    ⦃⇓? r s' => ⌜(match r with | none => s' = s₀ | some t => Reads s₀ [t] s') ∧
      Stands true s'⌝⦄ := by
  mvcgen [starredName?, query, child, extras]
  all_goals grind -ring -linarith [isMark_openings]

@[spec]
theorem genericType_spec (ctx : Context) :
    ⦃fun s => ⌜s = s₀ ∧ Stands true s⌝⦄ genericType? self ctx
    ⦃⇓? r s' => ⌜(match r with | none => s' = s₀ | some t => Reads s₀ [t] s') ∧
      Stands true s'⌝⦄ := by
  mvcgen [genericType?, query, child, extras]
  all_goals grind -ring -linarith

@[spec]
theorem simpleType_spec (ctx : Context) :
    ⦃fun s => ⌜s = s₀ ∧ Stands true s⌝⦄ simpleType self ctx
    ⦃⇓? t s' => ⌜Reads s₀ [t] s' ∧ Stands false s'⌝⦄ := by
  mvcgen [simpleType, child, extras]
  all_goals grind -ring -linarith [isMark_openings]

@[spec]
theorem type_spec (isConstrainable : Bool) (ctx : Context) :
    ⦃fun s => ⌜s = s₀ ∧ Stands true s⌝⦄ type self isConstrainable ctx
    ⦃⇓? t s' => ⌜Reads s₀ [t] s' ∧ t.IsLoose ∧ Stands false s'⌝⦄ := by
  have hconstruct := hself.construct
  have hloop := @loop_spec Tree fun t s₀ t' s =>
    GoesOn [t] s₀ [t'] s ∧ t'.IsLoose ∧ Stands false s
  mvcgen [type, child, extras, hconstruct, hloop]
  all_goals grind -ring -linarith

/-! ## Patterns -/

omit hself in
@[spec]
theorem dottedName_spec (after : Demand) :
    ⦃fun s => ⌜s = s₀ ∧ Stands true s⌝⦄ dottedName after
    ⦃⇓? t s' => ⌜Reads s₀ [t] s' ∧ Stands true s'⌝⦄ := by
  have hloop := @loop_spec (List (List Tree)) fun chunks s₀ chunks' s =>
    GoesOn chunks.reverse.flatten s₀ chunks'.reverse.flatten s ∧ Stands true s
  mvcgen [dottedName, query, child, extras, hloop]
  all_goals grind -ring -linarith

omit hself in
@[spec]
theorem number_spec (after : Demand) :
    ⦃fun s => ⌜s = s₀ ∧ Stands false s⌝⦄ number after
    ⦃⇓? t s' => ⌜Reads s₀ [t] s' ∧ Stands false s'⌝⦄ := by
  mvcgen [number]
  all_goals grind -ring -linarith

omit hself in
@[spec]
theorem numberPattern_spec (ctx : Context) :
    ⦃fun s => ⌜s = s₀ ∧ Stands false s⌝⦄ numberPattern ctx
    ⦃⇓? ts s' => ⌜Reads s₀ ts s' ∧ Stands false s'⌝⦄ := by
  mvcgen [numberPattern, child, extras]
  all_goals grind -ring -linarith [isMark_openings]

omit hself in
@[spec]
theorem patternsUntil_spec (close : String) (part : Parse Tree) (after : Demand)
    (hclose : isMark close.toList = true)
    (hpart : ∀ s₀, ⦃fun s => ⌜s = s₀ ∧ Stands true s⌝⦄ part
      ⦃⇓? t s' => ⌜Reads s₀ [t] s' ∧ Stands false s'⌝⦄) :
    ⦃fun s => ⌜s = s₀ ∧ Stands true s⌝⦄ patternsUntil close part after
    ⦃⇓? ts s' => ⌜Reads s₀ ts s' ∧ Stands true s'⌝⦄ := by
  mvcgen [patternsUntil, query, child, extras, hpart]
  all_goals grind -ring -linarith

omit hself in
@[spec]
theorem splatPattern_spec (ctx : Context) :
    ⦃fun s => ⌜s = s₀ ∧ Stands false s ∧ s.isAt "*" = true⌝⦄ splatPattern ctx
    ⦃⇓? t s' => ⌜Reads s₀ [t] s' ∧ Stands true s'⌝⦄ := by
  mvcgen [splatPattern, query, child, extras]
  all_goals grind -ring -linarith [isMark_openings]

@[spec]
theorem classPattern_spec (ctx : Context) :
    ⦃fun s => ⌜s = s₀ ∧ Stands true s⌝⦄ classPattern self ctx
    ⦃⇓? t s' => ⌜Reads s₀ [t] s' ∧ Stands true s'⌝⦄ := by
  have hconstruct := hself.construct
  mvcgen [classPattern, query, hconstruct]
  all_goals grind -ring -linarith

@[spec]
theorem entryPattern_spec :
    ⦃fun s => ⌜s = s₀ ∧ Stands true s⌝⦄ entryPattern self
    ⦃⇓? t s' => ⌜Reads s₀ [t] s' ∧ Stands false s'⌝⦄ := by
  have hconstruct := hself.construct
  mvcgen [entryPattern, query, childAs, child, extras, hconstruct]
  all_goals grind -ring -linarith

@[spec]
theorem closedPattern_spec (ctx : Context) :
    ⦃fun s => ⌜s = s₀ ∧ Stands true s⌝⦄ closedPattern self ctx
    ⦃⇓? ts s' => ⌜Reads s₀ ts s' ∧ Stands false s'⌝⦄ := by
  have hconstruct := hself.construct
  mvcgen [closedPattern, hconstruct]
  all_goals grind -ring -linarith [isMark_openings]

@[spec]
theorem simplePattern_spec (ctx : Context) :
    ⦃fun s => ⌜s = s₀ ∧ Stands true s⌝⦄ simplePattern self ctx
    ⦃⇓? t s' => ⌜Reads s₀ [t] s' ∧ t.IsLoose ∧ Stands false s'⌝⦄ := by
  have hloop := @loop_spec (List (List Tree)) fun chunks s₀ chunks' s =>
    GoesOn chunks.reverse.flatten s₀ chunks'.reverse.flatten s ∧ Stands false s ∧
      (s₀.stop.offset : ℕ∞) ≤ s.stop.offset
  mvcgen [simplePattern, query, extras, hloop]
  all_goals grind -ring -linarith [AllFaithful.le_pastAll]

omit hself in
@[grind →]
theorem standsFor_loneName {t label : Tree} (h : t.IsFaithful Source.chars)
    (hlabel : loneName? t = some label) : label.StandsFor Source.chars t.children := by
  unfold loneName? at hlabel
  split at hlabel
  · rename_i field start stop u hchildren
    obtain rfl := Option.some.inj hlabel
    have hfaithful := h.children
    rw [hchildren] at hfaithful ⊢
    grind
  · cases hlabel

@[spec]
theorem casePattern_spec (ctx : Context) :
    ⦃fun s => ⌜s = s₀ ∧ Stands true s⌝⦄ casePattern self ctx
    ⦃⇓? t s' => ⌜Reads s₀ [t] s' ∧ t.IsLoose ∧ Stands false s'⌝⦄ := by
  have hconstruct := hself.construct
  have hloop := @loop_spec Tree fun t s₀ t' s =>
    GoesOn [t] s₀ [t'] s ∧ t'.IsLoose ∧ Stands false s
  mvcgen [casePattern, query, child, extras, hconstruct, hloop]
  all_goals grind -ring -linarith

/-! ## Assignments -/

@[spec]
theorem statementItems_spec :
    ⦃fun s => ⌜s = s₀ ∧ Stands true s⌝⦄ statementItems self
    ⦃⇓? list s' => ⌜Reads s₀ list.trees s' ∧ Stands false s'⌝⦄ := by
  mvcgen [statementItems, child, extras]
  all_goals grind -ring -linarith

@[spec]
theorem assigned_spec :
    ⦃fun s => ⌜s = s₀ ∧ Stands true s⌝⦄ assigned self
    ⦃⇓? ts s' => ⌜Reads s₀ ts s' ∧ AllPlay [.left, .type, .right] none ts ∧
      (∀ lo, lo ≤ 2 → turnAfter ts lo ≤ 3) ∧ Stands false s'⌝⦄ := by
  have hconstruct := hself.construct
  mvcgen [assigned, childAs, child, extras, hconstruct]
  all_goals grind -ring -linarith

@[spec]
theorem assignmentOf_spec (list : Items) (hlist : AllFaithful Source.chars list.trees) :
    ⦃fun s => ⌜s = s₀ ∧ Stands false s⌝⦄ assignmentOf self list
    ⦃⇓? t s' => ⌜GoesOn list.trees s₀ [t] s' ∧ Stands false s'⌝⦄ := by
  have hconstruct := hself.construct
  mvcgen [assignmentOf, query, childAs, child, extras, hconstruct]
  all_goals grind -ring -linarith [standsFor_targetOf, isPattern_targetOf]

@[spec]
theorem targetItems_spec (rest : Context) :
    ⦃fun s => ⌜s = s₀ ∧ Stands true s⌝⦄ targetItems self rest
    ⦃⇓? list s' => ⌜Reads s₀ list.trees s' ∧ Stands false s'⌝⦄ := by
  mvcgen [targetItems, query, require, child, extras]
  all_goals grind -ring -linarith

@[spec]
theorem leadingItems_spec (rest : Context) :
    ⦃fun s => ⌜s = s₀ ∧ Stands true s⌝⦄ leadingItems self rest
    ⦃⇓? list s' => ⌜Reads s₀ list.trees s' ∧ Stands false s'⌝⦄ := by
  have hafter := @afterFailure_spec Items fun s => s = s₀ ∧ Stands true s
  have heither := @either_spec Items fun s => s = s₀ ∧ Stands true s
  have hexpressions : ⦃fun s => ⌜s = s₀ ∧ Stands true s⌝⦄
      (do
        let list ← statementItems self
        let t ← get
        require (isAtStatementEnd t || isAtAssignment t && (targetOf? list).isSome)
        return list : Parse Items)
      ⦃⇓? list s' => ⌜Reads s₀ list.trees s' ∧ Stands false s'⌝⦄ := by
    mvcgen [require]
    all_goals grind
  mvcgen [leadingItems, hafter, heither]
  case vc2 | vc5 => exact fun _ _ _ => hself
  case vc6.hq =>
    -- The list has been read before, from where the statement begins.
    rename_i s hs _ list t hrun _ _ _ _
    exact triple_iff.mp hexpressions s list t hs hrun
  case vc8.h_2.isFalse =>
    rename_i s hs _ list t hrun _ _
    exact triple_iff.mp hexpressions s list t hs hrun

@[spec]
theorem rightSide_spec :
    ⦃fun s => ⌜s = s₀ ∧ Stands true s⌝⦄ rightSide self
    ⦃⇓? t s' => ⌜Reads s₀ [t] s' ∧ Stands false s'⌝⦄ := by
  mvcgen [rightSide, query]
  all_goals grind -ring -linarith [allFaithful_of_eq_singleton, pastAll_of_eq_singleton]

/-! ## Any construct -/

omit hself in
theorem weaken_isLoose {p : Parse Tree} {before : State → Prop} {goal : Goal}
    (h : ⦃fun s => ⌜before s⌝⦄ p ⦃⇓? t s' => ⌜Reads s₀ [t] s' ∧ t.IsLoose ∧ Stands false s'⌝⦄) :
    ⦃fun s => ⌜before s⌝⦄ p
    ⦃⇓? t s' => ⌜Reads s₀ [t] s' ∧ (goal ≠ .rightSide → t.IsLoose) ∧ Stands false s'⌝⦄ :=
  triple_iff.mpr fun s t s' hs hrun =>
    have ⟨hreads, hloose, hs'⟩ := triple_iff.mp h s t s' hs hrun
    ⟨hreads, fun _ => hloose, hs'⟩

/-- A construct is read as its parts are. -/
theorem readsWords_construct : ReadsWords (construct self) where
  construct
    | .expression level ctx, _, _ => weaken_isLoose (expressionAt_spec hself level ctx)
    | .operand power ctx, _, _ => weaken_isLoose (binary_spec hself power ctx)
    | .unsigned ctx, _, _ => weaken_isLoose (unsigned_spec hself ctx)
    | .starred ctx, _, _ => weaken_isLoose (starred_spec hself ctx)
    | .source ctx, _, _ => weaken_isLoose (source_spec hself ctx)
    | .rightSide, _, _ => triple_iff.mpr fun s t s' hs hrun =>
      have ⟨hreads, hs'⟩ := triple_iff.mp (rightSide_spec hself) s t s' hs hrun
      ⟨hreads, fun h => absurd rfl h, hs'⟩
    | .type isConstrainable ctx, _, _ => weaken_isLoose (type_spec hself isConstrainable ctx)
    | .casePattern ctx, _, _ => weaken_isLoose (casePattern_spec hself ctx)
    | .simplePattern ctx, _, _ => weaken_isLoose (simplePattern_spec hself ctx)
    | .interpolation _, _, hgoal => nomatch hgoal
  braced kind _ hkind := interpolation_spec hself kind hkind

omit hself in
theorem readsWords_constructWithin (n : Nat) : ReadsWords (constructWithin n) := by
  induction n with
  | zero =>
    exact ⟨fun _ _ _ => triple_iff.mpr fun _ _ _ _ h => (nomatch h),
      fun _ _ _ => triple_iff.mpr fun _ _ _ _ h => (nomatch h)⟩
  | succ n ih => exact readsWords_construct ih

omit hself in
/-- The names of any construct are whole words in their order. -/
@[grind .]
theorem readsWords_anyConstruct : ReadsWords anyConstruct :=
  ⟨fun goal s₀ hgoal => triple_iff.mpr fun s =>
      triple_iff.mp ((readsWords_constructWithin s.fuel).construct goal s₀ hgoal) s,
    fun kind s₀ hkind => triple_iff.mpr fun s =>
      triple_iff.mp ((readsWords_constructWithin s.fuel).braced kind s₀ hkind) s⟩

end SymbolAtlas.Python.Grammar
