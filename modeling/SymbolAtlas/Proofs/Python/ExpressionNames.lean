import SymbolAtlas.Proofs.Python.CollectionNames
import SymbolAtlas.Python.Grammar.Expression

/-! # Names in expressions

Whatever the grammar of operands and expressions reads, the names in it are whole words of the
source in their order, provided that the parser of the parts reads names so. An operand may be a
number, and then a word may go on behind it; so after an operand the grammar takes keywords and
marks, but no names.
-/

namespace SymbolAtlas.Python.Grammar

open Std.Do Parse

set_option mvcgen.warning false

variable [Source] {s₀ : State} {self : Goal → Parse Tree} (hself : ReadsWords self)

/-! ## Operands -/

omit [Source] in
@[grind →]
theorem constantOf_ne {word : String} {kind : Kind} (h : constantOf? word = some kind) :
    kind ≠ .identifier ∧ kind ≠ .mark ∧ kind ≠ .fromImport := by
  unfold constantOf? at h
  grind

include hself

@[spec]
theorem atom_spec (ctx : Context) :
    ⦃fun s => ⌜s = s₀ ∧ Stands true s⌝⦄ atom self ctx
    ⦃⇓? t s' => ⌜Reads s₀ [t] s' ∧ t.IsLoose ∧ Stands false s'⌝⦄ := by
  mvcgen [atom]
  all_goals grind -ring -linarith

@[spec]
theorem attached_spec (ctx : Context) (t : Tree) (ht : t.IsFaithful Source.chars)
    (hloose : t.IsLoose) :
    ⦃fun s => ⌜s = s₀ ∧ Stands false s⌝⦄ attached self ctx t
    ⦃⇓? t' s' => ⌜GoesOn [t] s₀ [t'] s' ∧ t'.IsLoose ∧ Stands false s'⌝⦄ := by
  have hloop := @loop_spec Tree fun t s₀ t' s =>
    GoesOn [t] s₀ [t'] s ∧ t'.IsLoose ∧ Stands false s
  mvcgen [attached, childAs, child, extras, hloop]
  all_goals grind -ring -linarith

@[spec]
theorem starred_spec (ctx : Context) :
    ⦃fun s => ⌜s = s₀ ∧ Stands true s⌝⦄ starred self ctx
    ⦃⇓? t s' => ⌜Reads s₀ [t] s' ∧ t.IsLoose ∧ Stands false s'⌝⦄ := by
  have hconstruct := hself.construct
  have hloop := @loop_spec (List (List Tree)) fun _ s₀ stars s =>
    Passes s₀ stars.flatten s ∧ Stands true s
  mvcgen [starred, query, extras, hconstruct, hloop]
  all_goals grind -ring -linarith [isMark_openings]

@[spec]
theorem unsigned_spec (ctx : Context) :
    ⦃fun s => ⌜s = s₀ ∧ Stands true s⌝⦄ unsigned self ctx
    ⦃⇓? t s' => ⌜Reads s₀ [t] s' ∧ t.IsLoose ∧ Stands false s'⌝⦄ := by
  have hconstruct := hself.construct
  mvcgen [unsigned, query, child, extras, hconstruct]
  all_goals grind -ring -linarith [Tree.IsFaithful.le_past]

@[spec]
theorem signed_spec (ctx : Context) :
    ⦃fun s => ⌜s = s₀ ∧ Stands true s⌝⦄ signed self ctx
    ⦃⇓? t s' => ⌜Reads s₀ [t] s' ∧ t.IsLoose ∧ Stands false s'⌝⦄ := by
  have hconstruct := hself.construct
  mvcgen [signed, childAs, child, extras, hconstruct]
  all_goals grind -ring -linarith [isMark_openings]

@[spec]
theorem binary_spec (power : Nat) (ctx : Context) :
    ⦃fun s => ⌜s = s₀ ∧ Stands true s⌝⦄ binary self power ctx
    ⦃⇓? t s' => ⌜Reads s₀ [t] s' ∧ t.IsLoose ∧ Stands false s'⌝⦄ := by
  have hconstruct := hself.construct
  have hloop := @loop_spec Tree fun t s₀ t' s =>
    GoesOn [t] s₀ [t'] s ∧ t'.IsLoose ∧ Stands false s
  mvcgen [binary, query, childAs, child, extras, hconstruct, hloop]
  all_goals grind -ring -linarith

/-! ## Comparisons -/

omit hself in
@[spec]
theorem comparing_spec :
    ⦃fun s => ⌜s = s₀ ∧ Stands false s⌝⦄ comparing
    ⦃⇓? ts s' => ⌜Passes s₀ ts s' ∧ Stands false s' ∧ (ts ≠ [] → Stands true s')⌝⦄ := by
  mvcgen [comparing, query]
  all_goals grind -ring -linarith

@[spec]
theorem comparison_spec (ctx : Context) :
    ⦃fun s => ⌜s = s₀ ∧ Stands true s⌝⦄ comparison self ctx
    ⦃⇓? t s' => ⌜Reads s₀ [t] s' ∧ t.IsLoose ∧ Stands false s'⌝⦄ := by
  have hconstruct := hself.construct
  have hloop := @loop_spec (List (List Tree)) fun chunks s₀ chunks' s =>
    GoesOn chunks.reverse.flatten s₀ chunks'.reverse.flatten s ∧ Stands false s ∧
      (s₀.stop.offset : ℕ∞) ≤ s.stop.offset
  mvcgen [comparison, child, extras, hconstruct, hloop]
  all_goals grind -ring -linarith [Tree.IsFaithful.le_past]

/-! ## Parameters -/

@[spec]
theorem starredParameter_spec (kind : Kind) (stars : Tree) (ctx : Context)
    (hkind : kind.isPlain = true) (hstars : stars.IsFaithful Source.chars)
    (hnameless : stars.IsNameless) :
    ⦃fun s => ⌜s = s₀ ∧ Stands true s⌝⦄ starredParameter self kind stars ctx
    ⦃⇓? t s' => ⌜Reads s₀ [t] s' ∧ t.IsLoose ∧ Stands false s'⌝⦄ := by
  mvcgen [starredParameter, require, child, extras]
  all_goals grind -ring -linarith

theorem parameterType_spec (isTyped : Bool) (ctx : Context) :
    ⦃fun s => ⌜s = s₀ ∧ Stands false s⌝⦄ parameterType self isTyped ctx
    ⦃⇓? ts s' => ⌜Reads s₀ ts s' ∧ turnAfter ts 0 ≤ 2 ∧ Stands false s'⌝⦄ := by
  have hconstruct := hself.construct
  mvcgen [parameterType, query, childAs, child, extras, hconstruct]
  all_goals grind -ring -linarith

theorem parameterDefault_spec (ctx : Context) :
    ⦃fun s => ⌜s = s₀ ∧ Stands false s⌝⦄ parameterDefault self ctx
    ⦃⇓? ts s' => ⌜Reads s₀ ts s' ∧ (∀ lo, lo ≤ 2 → turnAfter ts lo ≤ 3) ∧ Stands false s'⌝⦄ := by
  mvcgen [parameterDefault, query, childAs, child, extras]
  all_goals grind -ring -linarith

@[spec]
theorem tupleParameter_spec (ctx : Context) :
    ⦃fun s => ⌜s = s₀ ∧ Stands false s ∧ s.isAt "(" = true⌝⦄ tupleParameter self ctx
    ⦃⇓? t s' => ⌜Reads s₀ [t] s' ∧ Stands false s'⌝⦄ := by
  mvcgen [tupleParameter, query, child, extras]
  all_goals grind -ring -linarith [isMark_openings]

@[spec]
theorem parameter_spec (isTyped : Bool) (ctx : Context) :
    ⦃fun s => ⌜s = s₀ ∧ Stands true s⌝⦄ parameter self isTyped ctx
    ⦃⇓? t s' => ⌜Reads s₀ [t] s' ∧ Stands false s'⌝⦄ := by
  have htype (s₀ : State) := @parameterType_spec _ s₀ self hself isTyped ctx
  have hdefault (s₀ : State) := @parameterDefault_spec _ s₀ self hself ctx
  mvcgen [parameter, query, htype, hdefault]
  all_goals grind -ring -linarith [isMark_openings, pastAll_of_eq_nil]

@[spec]
theorem lambdaParameters_spec :
    ⦃fun s => ⌜s = s₀ ∧ Stands true s⌝⦄ lambdaParameters self
    ⦃⇓? ts s' => ⌜Reads s₀ ts s' ∧ AllPlay [.parameters, .body] none ts ∧
      turnAfter ts 0 ≤ 2 ∧ Stands false s'⌝⦄ := by
  mvcgen [lambdaParameters, query, child, extras]
  all_goals grind -ring -linarith

@[spec]
theorem lambda_spec (body : Parse Tree)
    (hbody : ∀ s₀, ⦃fun s => ⌜s = s₀ ∧ Stands true s⌝⦄ body
      ⦃⇓? t s' => ⌜Reads s₀ [t] s' ∧ t.IsLoose ∧ Stands false s'⌝⦄) :
    ⦃fun s => ⌜s = s₀ ∧ Stands false s ∧ s.isAtWord "lambda" = true⌝⦄ lambda self body
    ⦃⇓? t s' => ⌜Reads s₀ [t] s' ∧ t.IsLoose ∧ Stands false s'⌝⦄ := by
  mvcgen [lambda, childAs, child, extras, hbody]
  all_goals grind -ring -linarith

/-! ## Levels -/

@[spec]
theorem negation_spec (ctx : Context) :
    ⦃fun s => ⌜s = s₀ ∧ Stands true s⌝⦄ negation self ctx
    ⦃⇓? t s' => ⌜Reads s₀ [t] s' ∧ t.IsLoose ∧ Stands false s'⌝⦄ := by
  have hconstruct := hself.construct
  mvcgen [negation, query, childAs, child, extras, hconstruct]
  all_goals grind -ring -linarith

@[spec]
theorem conditionalAfter_spec (value : Tree) (ctx : Context)
    (hvalue : value.IsFaithful Source.chars) :
    ⦃fun s => ⌜s = s₀ ∧ Stands false s⌝⦄ conditionalAfter self value ctx
    ⦃⇓? t s' => ⌜GoesOn [value] s₀ [t] s' ∧ t.IsLoose ∧ Stands false s'⌝⦄ := by
  mvcgen [conditionalAfter, child, extras]
  all_goals grind -ring -linarith

def asRenamed (t : Tree) : Tree :=
  if t.isExtra then t else (Tree.node .asPatternTarget [t]).inField .rename

omit hself [Source] in
theorem map_asRenamed_of_allExtra {ts : List Tree} (h : AllExtra ts) : ts.map asRenamed = ts :=
  (List.map_congr_left fun t ht => if_pos (h t ht).1).trans (List.map_id ts)

omit hself in
/-- What is read behind `as` renames what stands before it. -/
theorem allRename_asRenamed {es : List Tree} {t : Tree} (hes : AllFaithful Source.chars es)
    (hextra : AllExtra es) (ht : t.IsFaithful Source.chars) (hloose : t.IsLoose) :
    AllFaithful Source.chars ((es ++ [t]).map asRenamed) ∧
      AllRename ((es ++ [t]).map asRenamed) ∧ InTurn ((es ++ [t]).map asRenamed) ∧
      ∀ lo, pastAll ((es ++ [t]).map asRenamed) lo = pastAll (es ++ [t]) lo := by
  have hnameless := hextra.nameless hes
  have hunplaced := hextra.unplaced
  rw [List.map_append, List.map_singleton, asRenamed, map_asRenamed_of_allExtra hextra]
  split
  · have := ht.isNameless_of_isExtra ‹_›
    grind
  · grind

@[spec]
theorem expressionAt_spec (level : Level) (ctx : Context) :
    ⦃fun s => ⌜s = s₀ ∧ Stands true s⌝⦄ expressionAt self level ctx
    ⦃⇓? t s' => ⌜Reads s₀ [t] s' ∧ t.IsLoose ∧ Stands false s'⌝⦄ := by
  have hconstruct := hself.construct
  have hloop := @loop_spec Tree fun t s₀ t' s =>
    GoesOn [t] s₀ [t'] s ∧ t'.IsLoose ∧ Stands false s
  have hrenamed :
      (fun t => if t.isExtra then t else (Tree.node .asPatternTarget [t]).inField .rename) =
        asRenamed := rfl
  mvcgen [expressionAt, childAs, child, extras, hconstruct, hloop]
  all_goals grind -ring -linarith [allRename_asRenamed]

@[spec]
theorem source_spec (ctx : Context) :
    ⦃fun s => ⌜s = s₀ ∧ Stands true s⌝⦄ Grammar.source self ctx
    ⦃⇓? t s' => ⌜Reads s₀ [t] s' ∧ t.IsLoose ∧ Stands false s'⌝⦄ := by
  have hconstruct := hself.construct
  mvcgen [Grammar.source, query, hconstruct]
  all_goals grind -ring -linarith

end SymbolAtlas.Python.Grammar
