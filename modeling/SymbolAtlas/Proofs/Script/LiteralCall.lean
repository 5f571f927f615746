import SymbolAtlas.Proofs.Script.ImportPasses
import SymbolAtlas.Proofs.Script.PropertyName
import SymbolAtlas.Proofs.Token.WordStart

/-! # Calls with a literal

An import by a call should come from a call of `require` or `import` with a literal for its
argument. But the tokens of a call are read up to the literal only, and in the text `require` is
also found at the end of a longer word. So a source may have imports by calls that say nothing of
the sort; which sources have none is stated exactly.
-/

namespace SymbolAtlas.Script

open Token Lexeme

/-! ## Calls in a token list -/

/-- The beginning of a call up to a literal, which is the import that it is taken for; the tokens
`next` follow the literal. -/
inductive LiteralCall (ts : List Token) : Import → List Token → Prop
  | required {before next : List Token} {name opener argument : Token}
      (hts : ts = before ++ name :: opener :: argument :: next)
      (hname : name.is .identifier "require" = true) (hopener : opener.isMark "(" = true)
      (hargument : argument.hasKind .string = true) :
      LiteralCall ts ⟨.requireCall, unquote argument.text, name.position⟩ next
  | dynamic {before next : List Token} {name opener argument : Token}
      (hts : ts = before ++ name :: opener :: argument :: next)
      (hname : name.is .keyword "import" = true) (hopener : opener.isMark "(" = true)
      (hargument : argument.hasKind .string = true ∨ ∃ p s, argument = .template p s []) :
      LiteralCall ts ⟨.dynamicCall, unquote argument.text, name.position⟩ next

def endsArgument (next : List Token) : Bool := headIs (fun t => t.isMark ")" || t.isMark ",") next

section TokenList

variable {ts next : List Token} {i : Import}

theorem LiteralCall.mem_tokenImports (h : LiteralCall ts i next) : i ∈ tokenImports ts := by
  rw [Script.mem_tokenImports]
  cases h with
  | required hts hname hopener hargument =>
    refine ⟨_, _, _, hts, ?_⟩
    obtain ⟨p, rfl⟩ := eq_of_is hname
    obtain ⟨q, rfl⟩ := eq_of_isMark hopener
    obtain ⟨r, s, rfl⟩ := eq_of_hasKind hargument
    rfl
  | dynamic hts hname hopener hargument =>
    refine ⟨_, _, _, hts, ?_⟩
    obtain ⟨p, rfl⟩ := eq_of_is hname
    obtain ⟨q, rfl⟩ := eq_of_isMark hopener
    rcases hargument with hargument | ⟨r, s, rfl⟩
    · obtain ⟨r, s, rfl⟩ := eq_of_hasKind hargument
      rfl
    · rfl

theorem LiteralCall.isStatic (h : LiteralCall ts i next) : isStatic i.clause = false := by
  cases h <;> rfl

theorem importAfter_dynamic {rest : List Token} {clause : ImportClause} {source : String}
    (h : importAfter rest = some (clause, source)) (hcall : isStatic clause = false) :
    clause = .dynamicCall ∧ ∃ opener argument next, rest = opener :: argument :: next ∧
      opener.isMark "(" = true ∧ source = unquote argument.text ∧
      (argument.hasKind .string = true ∨ ∃ p s, argument = .template p s []) := by
  unfold importAfter at h
  split at h
  · cases h
  split at h
  · next hopener =>
    split at h
    · obtain ⟨rfl, rfl⟩ := Prod.mk.inj (Option.some.inj h)
      exact ⟨rfl, _, _, _, rfl, hopener, rfl, .inl rfl⟩
    · obtain ⟨rfl, rfl⟩ := Prod.mk.inj (Option.some.inj h)
      exact ⟨rfl, _, _, _, rfl, hopener, rfl, .inr ⟨_, _, rfl⟩⟩
    · cases h
  split at h
  · cases h
  split at h
  · cases h
    cases hcall
  · obtain ⟨⟨found, after⟩, hbinding, hsource⟩ := Option.bind_eq_some_iff.mp h
    obtain ⟨_, _, heq⟩ := Option.map_eq_some_iff.mp hsource
    cases heq
    obtain ⟨names, rfl | rfl | rfl⟩ := bindingClause_clause hbinding <;> cases hcall

/-- Every import that is made by a call in the tokens begins with a literal. -/
theorem exists_literalCall (h : i ∈ tokenImports ts) (hcall : isStatic i.clause = false) :
    ∃ next, LiteralCall ts i next := by
  obtain ⟨before, name, rest, hts, hi⟩ := mem_tokenImports.mp h
  unfold importAt at hi
  split at hi
  · next hname =>
    obtain ⟨⟨clause, source⟩, hafter, rfl⟩ := Option.map_eq_some_iff.mp hi
    obtain ⟨rfl, opener, argument, next, rfl, hopener, rfl, hargument⟩ :=
      importAfter_dynamic hafter hcall
    exact ⟨next, .dynamic hts hname hopener hargument⟩
  split at hi
  · next hname =>
    obtain ⟨source, hrequired, rfl⟩ := Option.map_eq_some_iff.mp hi
    unfold requiredAfter at hrequired
    split at hrequired
    · next opener argument next =>
      split at hrequired
      · next hcond =>
        obtain rfl := Option.some.inj hrequired
        rw [Bool.and_eq_true] at hcond
        exact ⟨next, .required hts hname hcond.1 hcond.2⟩
      · cases hrequired
    · cases hrequired
  · cases hi

theorem LiteralCall.exists_word (h : LiteralCall ts i next) :
    ∃ before name opener argument, ts = before ++ name :: opener :: argument :: next ∧
      name.position = i.position ∧ name.text.toList.head?.any Identifier.isAsciiLetter = true := by
  cases h with
  | required hts hname _ _ =>
    obtain ⟨p, rfl⟩ := eq_of_is hname
    exact ⟨_, _, _, _, hts, rfl, by rw [text]; decide⟩
  | dynamic hts hname _ _ =>
    obtain ⟨p, rfl⟩ := eq_of_is hname
    exact ⟨_, _, _, _, hts, rfl, by rw [text]; decide⟩

end TokenList

/-- The place of a call in a source determines what follows the literal. -/
theorem LiteralCall.next_unique {content : String} {i : Import} {next next' : List Token}
    (h : LiteralCall (tokenize content) i next) (h' : LiteralCall (tokenize content) i next') :
    next = next' := by
  obtain ⟨before, name, opener, argument, hts, hposition, -⟩ := h.exists_word
  obtain ⟨before', name', opener', argument', hts', hposition', -⟩ := h'.exists_word
  have hlayer : Layer (tokenize content) (before ++ name :: opener :: argument :: next) :=
    hts ▸ .outer
  have hlayer' : Layer (tokenize content) (before' ++ name' :: opener' :: argument' :: next') :=
    hts' ▸ .outer
  obtain ⟨-, -, hafter⟩ := hlayer.eq_of_position_eq hlayer' (hposition.trans hposition'.symm)
  exact (List.cons.inj (List.cons.inj hafter).2).2

/-! ## What stands before a place -/

/-- A character that passes the test stands just before the place `p` of the text. -/
def Follows (content : List Char) (p : Position) (test : Char → Bool) : Prop :=
  ∃ before d after, content = before ++ d :: after ∧ Position.start.after (before ++ [d]) = p ∧
    test d = true

/-- A character that can continue a name but not begin one, nor anything else. -/
def isStrayPart (c : Char) : Bool := isNamePart c && isStray c

/-- Only stray characters can stand where a name would run into a call of the tokens. -/
theorem LiteralCall.follows_iff {content : String} {i : Import} {next : List Token}
    (h : LiteralCall (tokenize content) i next) :
    Follows content.toList i.position isNamePart ↔
      Follows content.toList i.position isStrayPart := by
  obtain ⟨before, name, opener, argument, hts, hposition, hletter⟩ := h.exists_word
  have hmem : name ∈ tokenize content := hts ▸ List.mem_append_right _ List.mem_cons_self
  obtain ⟨text, rest, hcontent, hplace, hbreak⟩ := exists_before_word hmem hletter
  constructor
  · rintro ⟨xs, d, ys, hxs, hp, hd⟩
    refine ⟨xs, d, ys, hxs, hp, ?_⟩
    have hsplit : (xs ++ [d]) ++ ys = text ++ (name.text.toList ++ rest) := by
      rw [← hcontent, hxs, List.append_assoc]
      rfl
    obtain rfl := Position.eq_of_after_eq hsplit (hp.trans (hposition.symm.trans hplace))
    rw [isStrayPart, hd, hbreak d List.getLast?_concat hd]
    rfl
  · rintro ⟨xs, d, ys, hxs, hp, hd⟩
    rw [isStrayPart, Bool.and_eq_true] at hd
    exact ⟨xs, d, ys, hxs, hp, hd.1⟩

/-! ## Sources with such calls only -/

/-- Every import by a `require` call begins with a whole word, and in every call that the tokens
show the literal is a complete argument. -/
structure OnlyLiteralCalls (content : String) : Prop where
  isWhole : ∀ i ∈ imports (tokenize content) content, i.clause = .requireCall →
    ¬ Follows content.toList i.position isNamePart
  isComplete : ∀ i ∈ tokenImports (tokenize content), isStatic i.clause = false →
    ∃ next, LiteralCall (tokenize content) i next ∧ endsArgument next = true

section Source

variable {content : String}

theorem isComplete_iff :
    (∀ i ∈ tokenImports (tokenize content), isStatic i.clause = false →
      ∃ next, LiteralCall (tokenize content) i next ∧ endsArgument next = true) ↔
      ∀ i next, LiteralCall (tokenize content) i next → endsArgument next = true := by
  constructor
  · intro h i next hcall
    obtain ⟨next', hcall', hends⟩ := h i hcall.mem_tokenImports hcall.isStatic
    rwa [hcall.next_unique hcall']
  · intro h i hi hstatic
    obtain ⟨next, hcall⟩ := exists_literalCall hi hstatic
    exact ⟨next, hcall, h i next hcall⟩

theorem isStatic_of_requireCall {i : Import} (h : i.clause = .requireCall) :
    isStatic i.clause = false := by rw [h]; rfl

theorem isWhole_tokens_iff :
    (∀ i ∈ tokenImports (tokenize content), i.clause = .requireCall →
      ¬ Follows content.toList i.position isNamePart) ↔
      ∀ i next, LiteralCall (tokenize content) i next → i.clause = .requireCall →
        ¬ Follows content.toList i.position isStrayPart := by
  constructor
  · intro h i next hcall hclause
    rw [← hcall.follows_iff]
    exact h i hcall.mem_tokenImports hclause
  · intro h i hi hclause
    obtain ⟨next, hcall⟩ := exists_literalCall hi (isStatic_of_requireCall hclause)
    rw [hcall.follows_iff]
    exact h i next hcall hclause

/-- The module of a call in the text is required by an earlier one, or by a call of the tokens. -/
def IsRequiredBefore (content : String) (earlier : List (Occurrence String)) (value : String) :
    Prop :=
  (∃ e ∈ earlier, e.value = value) ∨
    ∃ i next, LiteralCall (tokenize content) i next ∧ i.clause = .requireCall ∧ i.source = value

theorem not_isRequiredBefore_iff {earlier : List (Occurrence String)} {value : String} :
    ¬ IsRequiredBefore content earlier value ↔ (∀ e ∈ earlier, e.value ≠ value) ∧
      ∀ j ∈ tokenImports (tokenize content), j.clause = .requireCall → j.source ≠ value := by
  rw [IsRequiredBefore, not_or]
  refine and_congr (by simp) ⟨fun h j hj hclause hsource => ?_, ?_⟩
  · obtain ⟨next, hcall⟩ := exists_literalCall hj (isStatic_of_requireCall hclause)
    exact h ⟨j, next, hcall, hclause, hsource⟩
  · rintro h ⟨i, next, hcall, hclause, hsource⟩
    exact h i hcall.mem_tokenImports hclause hsource

theorem isWhole_calls_iff (calls : List (Occurrence String)) :
    (∀ i ∈ newcomers (tokenImports (tokenize content)) (calls.map (callImport content)),
      i.clause = .requireCall → ¬ Follows content.toList i.position isNamePart) ↔
      ∀ earlier m later, calls = earlier ++ m :: later →
        Follows content.toList (callImport content m).position isNamePart →
          IsRequiredBefore content earlier m.value := by
  constructor
  · intro h earlier m later hcalls hfollows
    by_contra hnew
    obtain ⟨hearlier, htokens⟩ := not_isRequiredBefore_iff.mp hnew
    exact h _ (mem_newcomers_calls.mpr ⟨earlier, m, later, hcalls, rfl, hearlier, htokens⟩) rfl
      hfollows
  · intro h i hi _ hfollows
    obtain ⟨earlier, m, later, hcalls, rfl, hnew⟩ := mem_newcomers_calls.mp hi
    exact not_isRequiredBefore_iff.mpr hnew (h earlier m later hcalls hfollows)

end Source

/-- A source has imports by literal calls only exactly under three conditions: in every call of its
tokens that begins with a literal the argument ends there; no stray character that could go on
with a name stands just before a `require` of these; and each call in its text whose `require`
ends a longer word requires a module that an earlier call or the tokens require. -/
theorem onlyLiteralCalls_iff (content : String) :
    ∃ calls, IsSweep (IsCallAt content.toList) calls ∧
      (OnlyLiteralCalls content ↔
        (∀ i next, LiteralCall (tokenize content) i next → endsArgument next = true) ∧
        (∀ i next, LiteralCall (tokenize content) i next → i.clause = .requireCall →
          ¬ Follows content.toList i.position isStrayPart) ∧
        ∀ earlier m later, calls = earlier ++ m :: later →
          Follows content.toList (callImport content m).position isNamePart →
            IsRequiredBefore content earlier m.value) := by
  obtain ⟨calls, hsweep, himports⟩ := exists_calls_imports content
  refine ⟨calls, hsweep, ?_⟩
  have hstructure : OnlyLiteralCalls content ↔ _ ∧ _ :=
    ⟨fun h => ⟨h.isComplete, h.isWhole⟩, fun h => ⟨h.2, h.1⟩⟩
  rw [hstructure, isComplete_iff, himports, List.forall_mem_append, isWhole_tokens_iff,
    isWhole_calls_iff]

/-- The word `myrequire` ends in `require`, and the argument of the second call is computed. -/
theorem not_onlyLiteralCalls :
    ¬ OnlyLiteralCalls "myrequire('x')" ∧ ¬ OnlyLiteralCalls "require('./a/' + name)" := by
  constructor
  · intro h
    have himports : imports (tokenize "myrequire('x')") "myrequire('x')" =
        [⟨.requireCall, "x", ⟨1, 3⟩⟩] := by decide +kernel
    refine h.isWhole ⟨.requireCall, "x", ⟨1, 3⟩⟩ (by rw [himports]; exact List.mem_singleton_self _)
      rfl ⟨['m'], 'y', "require('x')".toList, rfl, rfl, by decide +kernel⟩
  · intro h
    have hcall : LiteralCall (tokenize "require('./a/' + name)") ⟨.requireCall, "./a/", ⟨1, 1⟩⟩
        [.plain .operator ⟨1, 16⟩ "+", .plain .identifier ⟨1, 18⟩ "name",
          .plain .punctuation ⟨1, 22⟩ ")"] :=
      @LiteralCall.required _ [] _ (.plain .identifier ⟨1, 1⟩ "require")
        (.plain .punctuation ⟨1, 8⟩ "(") (.plain .string ⟨1, 9⟩ "'./a/'") rfl rfl rfl rfl
    obtain ⟨next, hnext, hends⟩ := h.isComplete _ hcall.mem_tokenImports rfl
    obtain rfl := hcall.next_unique hnext
    cases hends

end SymbolAtlas.Script
