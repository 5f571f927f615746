import SymbolAtlas.Proofs.Python.Standing

/-! # Names in strings and bracketed constructs

Whatever the grammar of strings, lists and brackets reads, the names in it are whole words of the
source, in the order of the source and at the places that the grammar has for them, provided that
the parser of the parts reads names so. What is read onto what has been read before continues its
order.
-/

namespace SymbolAtlas.Python.Grammar

open Std.Do Parse

set_option mvcgen.warning false

variable [Source] {s₀ : State}

/-- Whether a construct begins with a brace inside a string. -/
@[grind =]
def Goal.isBraced : Goal → Bool
  | .interpolation _ => true
  | _ => false

/-- A parser of all constructs reads names as whole words in their order, if it begins where no word
goes on, or at the brace of a construct inside a string. -/
structure ReadsWords (parse : Goal → Parse Tree) : Prop where
  construct : ∀ goal s₀, goal.isBraced = false →
    ⦃fun s => ⌜s = s₀ ∧ Stands true s⌝⦄ parse goal
    ⦃⇓? t s' => ⌜Reads s₀ [t] s' ∧ (goal ≠ .rightSide → t.IsLoose) ∧ Stands false s'⌝⦄
  braced : ∀ kind s₀, kind.isPlain = true →
    ⦃fun s => ⌜s = s₀ ∧ Stands false s ∧ s.isAt "\x7b" = true⌝⦄ parse (.interpolation kind)
    ⦃⇓? t s' => ⌜Reads s₀ [t] s' ∧ Stands false s'⌝⦄

variable {self : Goal → Parse Tree} (hself : ReadsWords self)

/-! ## Lists -/

/-- A list whose elements are targets is a list of targets. -/
theorem items_patterns_spec (element : Parse (List Tree)) (afterComma : Demand)
    (goesOn : State → Bool)
    (helement : ∀ s₀, ⦃fun s => ⌜s = s₀ ∧ Stands true s⌝⦄ element
      ⦃⇓? ts s' => ⌜Reads s₀ ts s' ∧ AllPatterns ts ∧ Stands false s'⌝⦄) :
    ⦃fun s => ⌜s = s₀ ∧ Stands true s⌝⦄ items element afterComma goesOn
    ⦃⇓? list s' => ⌜Reads s₀ list.trees s' ∧ AllPatterns list.trees ∧ Stands false s'⌝⦄ := by
  have hloop := @loop_spec (List (List Tree) × Nat × Bool) fun a s₀ b s =>
    GoesOn a.1.reverse.flatten s₀ b.1.reverse.flatten s ∧ AllPatterns b.1.reverse.flatten ∧
      Stands false s
  mvcgen [items, itemsAfter, query, hloop, helement]
  all_goals grind -ring -linarith

@[spec]
theorem itemsAfter_spec (first : List Tree) (element : Parse (List Tree)) (afterComma : Demand)
    (goesOn : State → Bool) (hfirst : AllFaithful Source.chars first)
    (helement : ∀ s₀, ⦃fun s => ⌜s = s₀ ∧ Stands true s⌝⦄ element
      ⦃⇓? ts s' => ⌜Reads s₀ ts s' ∧ Stands false s'⌝⦄) :
    ⦃fun s => ⌜s = s₀ ∧ Stands false s⌝⦄ itemsAfter first element afterComma goesOn
    ⦃⇓? list s' => ⌜GoesOn first s₀ list.trees s' ∧ Stands false s'⌝⦄ := by
  have hloop := @loop_spec (List (List Tree) × Nat × Bool) fun a s₀ b s =>
    GoesOn a.1.reverse.flatten s₀ b.1.reverse.flatten s ∧ Stands false s
  mvcgen [itemsAfter, query, hloop, helement]
  all_goals grind -ring -linarith

@[spec]
theorem items_spec (element : Parse (List Tree)) (afterComma : Demand)
    (goesOn : State → Bool)
    (helement : ∀ s₀, ⦃fun s => ⌜s = s₀ ∧ Stands true s⌝⦄ element
      ⦃⇓? ts s' => ⌜Reads s₀ ts s' ∧ Stands false s'⌝⦄) :
    ⦃fun s => ⌜s = s₀ ∧ Stands true s⌝⦄ items element afterComma goesOn
    ⦃⇓? list s' => ⌜Reads s₀ list.trees s' ∧ Stands false s'⌝⦄ := by
  mvcgen [items, helement]
  all_goals grind -ring -linarith

include hself

/-! ## Strings -/

@[spec]
theorem expressions_spec (ctx : Context) :
    ⦃fun s => ⌜s = s₀ ∧ Stands true s⌝⦄ expressions self ctx
    ⦃⇓? t s' => ⌜Reads s₀ [t] s' ∧ Stands false s'⌝⦄ := by
  have hconstruct := hself.construct
  mvcgen [expressions, child, extras, hconstruct]
  all_goals grind -ring -linarith [allFaithful_of_eq_singleton, pastAll_of_eq_singleton]

@[spec]
theorem yieldExpression_spec (ctx : Context) :
    ⦃fun s => ⌜s = s₀ ∧ Stands true s ∧ TakesWhole 5 s⌝⦄ yieldExpression self ctx
    ⦃⇓? t s' => ⌜Reads s₀ [t] s' ∧ Stands false s'⌝⦄ := by
  have hconstruct := hself.construct
  mvcgen [yieldExpression, query, child, extras, hconstruct]
  all_goals grind -ring -linarith

omit hself in
@[spec]
theorem textRun_spec (opening : Opening) :
    ⦃fun s => ⌜s = s₀ ∧ Stands false s⌝⦄ textRun opening
    ⦃⇓? t s' => ⌜Passes s₀ [t] s' ∧ Stands false s'⌝⦄ := by
  have hloop := @loop_spec (List Tree) fun _ s₀ ts s => Passes s₀ ts s ∧ Stands false s
  mvcgen [textRun, query, hloop]
  all_goals grind -ring -linarith

omit hself in
@[spec]
theorem skipFiller_spec :
    ⦃fun s => ⌜s = s₀ ∧ Stands false s⌝⦄ skipFiller
    ⦃⇓? _ s' => ⌜Passes s₀ [] s' ∧ Stands false s'⌝⦄ := by
  mvcgen [skipFiller]
  rename_i s hs _
  obtain ⟨rfl, hs⟩ := hs
  exact ⟨⟨allFaithful_nil, nameless_nil, unplaced_nil, le_rfl⟩, { hs with
    start_isIn := hs.start_isIn.advance _
    stop_le_start := Nat.le_trans hs.stop_le_start (Cursor.le_advance_offset _ _)
    isApart_start := fun h => (nomatch h) }⟩

@[spec]
theorem stringBody_spec (opening : Opening) (front : List Tree)
    (hfront : AllFaithful Source.chars front) :
    ⦃fun s => ⌜s = s₀ ∧ Stands false s⌝⦄ stringBody self opening front
    ⦃⇓? ts s' => ⌜GoesOn front.reverse s₀ ts s' ∧ Stands false s'⌝⦄ := by
  have hloop := @loop_spec (List Tree × Bool) fun a s₀ b s =>
    GoesOn a.1.reverse s₀ b.1.reverse s ∧ Stands false s
  have hbraced := hself.braced
  mvcgen [stringBody, query, require, hloop, hbraced]
  all_goals grind -ring -linarith

@[spec]
theorem string_spec (demand : Demand) :
    ⦃fun s => ⌜s = s₀ ∧ Stands false s⌝⦄ string self demand
    ⦃⇓? t s' => ⌜Reads s₀ [t] s' ∧ t.IsLoose ∧ Stands false s'⌝⦄ := by
  have hbraced := hself.braced
  mvcgen [string, query, hbraced]
  all_goals grind -ring -linarith

@[spec]
theorem strings_spec (ctx : Context) :
    ⦃fun s => ⌜s = s₀ ∧ Stands false s⌝⦄ strings self ctx
    ⦃⇓? t s' => ⌜Reads s₀ [t] s' ∧ t.IsLoose ∧ Stands false s'⌝⦄ := by
  have hloop := @loop_spec (List (List Tree)) fun chunks s₀ chunks' s =>
    GoesOn chunks.reverse.flatten s₀ chunks'.reverse.flatten s ∧ Stands false s ∧
      (s₀.stop.offset : ℕ∞) ≤ s.stop.offset
  have hbraced := hself.braced
  mvcgen [strings, query, child, extras, hloop, hbraced]
  all_goals grind -ring -linarith [AllFaithful.le_pastAll, Tree.IsFaithful.le_past]

@[spec]
theorem formatSpecifier_spec :
    ⦃fun s => ⌜s = s₀ ∧ Stands false s⌝⦄ formatSpecifier self
    ⦃⇓? t s' => ⌜Reads s₀ [t] s' ∧ Stands false s'⌝⦄ := by
  have hloop := @loop_spec (List Tree) fun ts s₀ us s =>
    GoesOn ts.reverse s₀ us.reverse s ∧ Stands false s
  have hbraced := hself.braced
  mvcgen [formatSpecifier, query, hloop, hbraced]
  all_goals grind -ring -linarith

@[spec]
theorem interpolation_spec (kind : Kind) (hkind : kind.isPlain = true) :
    ⦃fun s => ⌜s = s₀ ∧ Stands false s ∧ s.isAt "\x7b" = true⌝⦄ interpolation self kind
    ⦃⇓? t s' => ⌜Reads s₀ [t] s' ∧ Stands false s'⌝⦄ := by
  have hconstruct := hself.construct
  mvcgen [interpolation, query, require, childAs, child, extras, hconstruct]
  all_goals grind -ring -linarith [isMark_openings]

/-! ## Elements -/

@[spec]
theorem expression_spec (ctx : Context) :
    ⦃fun s => ⌜s = s₀ ∧ Stands true s⌝⦄ expression self ctx
    ⦃⇓? t s' => ⌜Reads s₀ [t] s' ∧ t.IsLoose ∧ Stands false s'⌝⦄ := by
  have hconstruct := hself.construct
  mvcgen [expression, hconstruct]
  all_goals grind -ring -linarith

@[spec]
theorem splatElement_spec (ctx : Context) :
    ⦃fun s => ⌜s = s₀ ∧ Stands true s ∧ s.isAt "*" = true⌝⦄ splatElement self ctx
    ⦃⇓? t s' => ⌜Reads s₀ [t] s' ∧ Stands false s'⌝⦄ := by
  mvcgen [splatElement, child, extras]
  all_goals grind -ring -linarith [isMark_openings]

@[spec]
theorem element_spec (ctx : Context) :
    ⦃fun s => ⌜s = s₀ ∧ Stands true s⌝⦄ element self ctx
    ⦃⇓? t s' => ⌜Reads s₀ [t] s' ∧ Stands false s'⌝⦄ := by
  mvcgen [element]
  all_goals grind -ring -linarith

@[spec]
theorem elementsAfter_spec (first : Tree) (hfirst : first.IsFaithful Source.chars) :
    ⦃fun s => ⌜s = s₀ ∧ Stands false s⌝⦄ elementsAfter self first
    ⦃⇓? list s' => ⌜GoesOn [first] s₀ list.trees s' ∧ Stands false s'⌝⦄ := by
  mvcgen [elementsAfter, child, extras]
  all_goals grind -ring -linarith

/-! ## Comprehensions -/

@[spec]
theorem bindable_spec (ctx : Context) :
    ⦃fun s => ⌜s = s₀ ∧ Stands true s⌝⦄ bindable self ctx
    ⦃⇓? t s' => ⌜Reads s₀ [t] s' ∧ Stands false s'⌝⦄ := by
  have hconstruct := hself.construct
  mvcgen [bindable, query, hconstruct]
  all_goals grind -ring -linarith

@[spec]
theorem target_spec (ctx : Context) :
    ⦃fun s => ⌜s = s₀ ∧ Stands true s⌝⦄ target self ctx
    ⦃⇓? t s' => ⌜Reads s₀ [t] s' ∧ t.IsPattern ∧ Stands false s'⌝⦄ := by
  mvcgen [target]
  all_goals grind -ring -linarith [Tree.standsFor_asTarget, Tree.isPattern_asTarget]

@[spec]
theorem targets_spec :
    ⦃fun s => ⌜s = s₀ ∧ Stands true s⌝⦄ targets self
    ⦃⇓? t s' => ⌜Reads s₀ [t] s' ∧ (¬ t.IsNameless → t.IsPattern) ∧ Stands false s'⌝⦄ := by
  mvcgen [targets, child, extras, items_patterns_spec, -items_spec]
  all_goals grind -ring -linarith [allFaithful_of_eq_singleton, pastAll_of_eq_singleton,
    allPatterns_of_eq_singleton]

@[spec]
theorem forInClause_spec :
    ⦃fun s => ⌜s = s₀ ∧ Stands false s⌝⦄ forInClause self
    ⦃⇓? t s' => ⌜Reads s₀ [t] s' ∧ Stands false s'⌝⦄ := by
  have hconstruct := hself.construct
  mvcgen [forInClause, query, childAs, child, extras, hconstruct]
  all_goals grind -ring -linarith

@[spec]
theorem ifClause_spec (ctx : Context) :
    ⦃fun s => ⌜s = s₀ ∧ Stands false s ∧ s.isAtWord "if" = true⌝⦄ ifClause self ctx
    ⦃⇓? t s' => ⌜Reads s₀ [t] s' ∧ Stands false s'⌝⦄ := by
  mvcgen [ifClause, child, extras]
  all_goals grind -ring -linarith

@[spec]
theorem clauses_spec :
    ⦃fun s => ⌜s = s₀ ∧ Stands false s⌝⦄ clauses self
    ⦃⇓? ts s' => ⌜Reads s₀ ts s' ∧ Stands false s'⌝⦄ := by
  have hloop := @loop_spec (List (List Tree)) fun chunks s₀ chunks' s =>
    GoesOn chunks.reverse.flatten s₀ chunks'.reverse.flatten s ∧ Stands false s
  mvcgen [clauses, child, extras, hloop]
  all_goals grind -ring -linarith

/-! ## Brackets -/

@[spec]
theorem parenthesized_spec (ctx : Context) :
    ⦃fun s => ⌜s = s₀ ∧ Stands false s ∧ s.isAt "(" = true⌝⦄ parenthesized self ctx
    ⦃⇓? t s' => ⌜Reads s₀ [t] s' ∧ t.IsLoose ∧ Stands false s'⌝⦄ := by
  have hkind : Kind.parenthesized.isPlain = true ∧ Kind.tuple.isPlain = true := ⟨rfl, rfl⟩
  mvcgen [parenthesized, query, require, extras]
  all_goals grind -ring -linarith [isMark_openings]

@[spec]
theorem list_spec (ctx : Context) :
    ⦃fun s => ⌜s = s₀ ∧ Stands false s ∧ s.isAt "[" = true⌝⦄ list self ctx
    ⦃⇓? t s' => ⌜Reads s₀ [t] s' ∧ t.IsLoose ∧ Stands false s'⌝⦄ := by
  mvcgen [list, query, require, extras]
  all_goals grind -ring -linarith [isMark_openings]

@[spec]
theorem unpacked_spec (ctx : Context) :
    ⦃fun s => ⌜s = s₀ ∧ Stands false s ∧ s.isAt "**" = true⌝⦄ unpacked self ctx
    ⦃⇓? t s' => ⌜Reads s₀ [t] s' ∧ t.IsLoose ∧ Stands false s'⌝⦄ := by
  mvcgen [unpacked, child, extras]
  all_goals grind -ring -linarith [isMark_openings]

@[spec]
theorem pairOf_spec (key : Tree) (ctx : Context) (hkey : key.IsFaithful Source.chars) :
    ⦃fun s => ⌜s = s₀ ∧ Stands false s⌝⦄ pairOf self key ctx
    ⦃⇓? t s' => ⌜GoesOn [key] s₀ [t] s' ∧ Stands false s'⌝⦄ := by
  mvcgen [pairOf, childAs, child, extras]
  all_goals grind -ring -linarith

@[spec]
theorem entry_spec :
    ⦃fun s => ⌜s = s₀ ∧ Stands true s⌝⦄ entry self
    ⦃⇓? t s' => ⌜Reads s₀ [t] s' ∧ Stands false s'⌝⦄ := by
  mvcgen [entry, query]
  all_goals grind -ring -linarith

@[spec]
theorem dictionaryAfter_spec (front : List Tree) (first : Tree) (ctx : Context)
    (hfront : AllFaithful Source.chars front) (hfirst : first.IsFaithful Source.chars) :
    ⦃fun s => ⌜s = s₀ ∧ Stands false s⌝⦄ dictionaryAfter self front first ctx
    ⦃⇓? t s' => ⌜GoesOn (front ++ [first]) s₀ [t] s' ∧ t.IsLoose ∧ Stands false s'⌝⦄ := by
  mvcgen [dictionaryAfter, child, extras]
  all_goals grind -ring -linarith

@[spec]
theorem braced_spec (ctx : Context) :
    ⦃fun s => ⌜s = s₀ ∧ Stands false s ∧ s.isAt "\x7b" = true⌝⦄ braced self ctx
    ⦃⇓? t s' => ⌜Reads s₀ [t] s' ∧ t.IsLoose ∧ Stands false s'⌝⦄ := by
  mvcgen [braced, query, require, extras]
  all_goals grind -ring -linarith [isMark_openings]

/-! ## Arguments and subscripts -/

@[spec]
theorem argument_spec (ctx : Context) :
    ⦃fun s => ⌜s = s₀ ∧ Stands true s⌝⦄ argument self ctx
    ⦃⇓? t s' => ⌜Reads s₀ [t] s' ∧ Stands false s'⌝⦄ := by
  mvcgen [argument, query, childAs, child, extras]
  all_goals grind -ring -linarith

@[spec]
theorem arguments_spec (mayGenerate : Bool) (after : Demand) :
    ⦃fun s => ⌜s = s₀ ∧ Stands false s ∧ s.isAt "(" = true⌝⦄ arguments self mayGenerate after
    ⦃⇓? t s' => ⌜Reads s₀ [t] s' ∧ Stands false s'⌝⦄ := by
  mvcgen [arguments, require, child, extras]
  all_goals grind -ring -linarith [isMark_openings]

@[spec]
theorem subscriptElement_spec :
    ⦃fun s => ⌜s = s₀ ∧ Stands true s⌝⦄ subscriptElement self
    ⦃⇓? t s' => ⌜Reads s₀ [t] s' ∧ Stands false s'⌝⦄ := by
  mvcgen [subscriptElement, query, child, extras]
  all_goals grind -ring -linarith [List.append_eq_singleton_iff]

@[spec]
theorem subscripts_spec (ctx : Context) :
    ⦃fun s => ⌜s = s₀ ∧ Stands false s⌝⦄ subscripts self ctx
    ⦃⇓? ts s' => ⌜Reads s₀ ts s' ∧ Stands false s'⌝⦄ := by
  mvcgen [subscripts, childAs, child, extras]
  all_goals grind -ring -linarith

end SymbolAtlas.Python.Grammar
