import SymbolAtlas.Proofs.Script.Interpolation
import SymbolAtlas.Proofs.Script.PropertyName
import SymbolAtlas.Proofs.Token.Span
import SymbolAtlas.Script.Outline
import SymbolAtlas.Usage

/-! # Objects of member accesses

A name in front of a dot is a reference wherever it stands outside the import clauses, unless it
is built in, so an import that brings it into scope is not unused. Built-in names are never
references: an import of such names alone is unused whatever the script does with them.
-/

namespace SymbolAtlas

/-! ## What the imports of a script bind -/

namespace Script

def isScriptClause : ImportClause → Bool
  | .plain _ | .fromModule _ => false
  | _ => true

theorem isScriptClause_importAfter {ts : List Token} {clause : ImportClause} {source : String}
    (h : importAfter ts = some (clause, source)) : isScriptClause clause = true := by
  unfold importAfter at h
  split at h
  · cases h
  split at h
  · split at h <;> cases h <;> rfl
  split at h
  · cases h
  split at h
  · cases h
    rfl
  · obtain ⟨⟨found, rest⟩, hbinding, hsource⟩ := Option.bind_eq_some_iff.mp h
    obtain ⟨_, _, heq⟩ := Option.map_eq_some_iff.mp hsource
    cases heq
    obtain ⟨names, rfl | rfl | rfl⟩ := bindingClause_clause hbinding <;> rfl

theorem isScriptClause_importAt {t : Token} {rest : List Token} {i : Import}
    (h : importAt t rest = some i) : isScriptClause i.clause = true := by
  unfold importAt at h
  split at h
  · obtain ⟨⟨clause, source⟩, hclause, rfl⟩ := Option.map_eq_some_iff.mp h
    exact isScriptClause_importAfter hclause
  · split at h
    · obtain ⟨_, _, rfl⟩ := Option.map_eq_some_iff.mp h
      rfl
    · cases h

theorem isScriptClause_tokenImports {ts : List Token} {i : Import} (h : i ∈ tokenImports ts) :
    isScriptClause i.clause = true := by
  induction ts with
  | nil => exact absurd h List.not_mem_nil
  | cons t ts ih =>
    rcases List.mem_append.mp h with h | h
    · exact isScriptClause_importAt (Option.mem_toList.mp h)
    · exact ih h

theorem isScriptClause_imports {tokens : List Token} {content : String} {i : Import}
    (h : i ∈ imports tokens content) : isScriptClause i.clause = true := by
  -- A `require` call in the text adds at most itself to what is found already.
  have hfold (found more : List Import) (hfound : ∀ j ∈ found, isScriptClause j.clause = true)
      (hmore : ∀ j ∈ more, isScriptClause j.clause = true) :
      ∀ j ∈ more.foldl (fun found i =>
        if found.any fun j => j.clause == i.clause && j.source == i.source then found
        else found ++ [i]) found, isScriptClause j.clause = true := by
    induction more generalizing found with
    | nil => exact hfound
    | cons k more ih =>
      refine ih _ ?_ fun j hj => hmore j (List.mem_cons_of_mem k hj)
      dsimp only
      split
      · exact hfound
      · rw [List.forall_mem_append]
        exact ⟨hfound, List.forall_mem_singleton.mpr (hmore k List.mem_cons_self)⟩
  refine hfold _ _ (fun j => isScriptClause_tokenImports) ?_ i h
  rw [textImports, List.forall_mem_map]
  exact fun _ _ => rfl

end Script

/-- What an import of a script binds under a name, it binds under that name or not visibly. -/
theorem Binding.localName?_eq {b : Binding} {clause : ImportClause} {name : String}
    (hclause : Script.isScriptClause clause = true) (hname : name = b.rename.getD b.name)
    (hne : name ≠ "") : b.localName? clause = some name ∨ b.localName? clause = none := by
  unfold Binding.localName?
  cases hrename : b.rename with
  | some rename =>
    rw [hrename, Option.getD_some] at hname
    have hfilter : (some rename).filter (!·.isEmpty) = some name := by
      rw [← hname]
      exact if_pos (by simpa using hne)
    rw [hfilter]
    exact .inl rfl
  | none =>
    rw [hrename, Option.getD_none] at hname
    rw [Option.filter_none, hname]
    cases clause with
    | plain | fromModule => exact Bool.noConfusion hclause
    | wholeModule | named | defaultName | sideEffect | requireCall | dynamicCall =>
      by_cases hstar : b.name = "*"
      · exact .inr (if_pos hstar)
      · exact .inl (if_neg hstar)

theorem Outline.isUnused_eq_false {o : Outline} {i : Import} {b : Binding} {name : String}
    (hb : b ∈ i.names) (hlocal : b.localName? i.clause = some name ∨ b.localName? i.clause = none)
    (huses : o.uses name = true) : o.isUnused i = false := by
  have hnot : ((b.localName? i.clause).any fun name => !o.uses name) = false := by
    rcases hlocal with hlocal | hlocal
    · rw [hlocal, Option.any_some, huses, Bool.not_true]
    · rw [hlocal, Option.any_none]
  rw [Outline.isUnused, Bool.and_eq_false_iff, List.all_eq_false]
  exact .inr ⟨b, hb, Bool.eq_false_iff.mp hnot⟩

namespace Script

/-! ## Tokens outside the import clauses -/

/-- The token `t` stands between `before` and `after` in the list, or in the interpolations of a
template literal at any depth, and neither it nor a literal around it is in an import clause. -/
inductive StandsFree : List Token → List Token → Token → List Token → Prop
  | here {before after : List Token} {t : Token} (h : ¬ LeavesClauseOpen before (some t)) :
      StandsFree (before ++ t :: after) before t after
  | inside {pre post inner before after : List Token} {p : Position} {s : String} {t : Token}
      (h : ¬ LeavesClauseOpen pre (some (.template p s inner)))
      (next : StandsFree inner before t after) :
      StandsFree (pre ++ .template p s inner :: post) before t after

/-- Free tokens are tokens of the source. -/
theorem StandsFree.layer {ts before after : List Token} {t : Token}
    (h : StandsFree ts before t after) {source : List Token} (hts : Token.Layer source ts) :
    ∃ l, Token.Layer source l ∧ t ∈ l := by
  induction h with
  | here => exact ⟨_, hts, List.mem_append_right _ List.mem_cons_self⟩
  | inside _ _ ih => exact ih (.inner hts (List.mem_append_right _ List.mem_cons_self))

theorem StandsFree.text_ne_empty {source : String} {before after : List Token} {t : Token}
    (h : StandsFree (tokenize source) before t after) : t.text ≠ "" := by
  obtain ⟨l, hl, ht⟩ := h.layer .outer
  obtain ⟨lo, hi, hlaid⟩ := tokenize_laid source
  obtain ⟨lo', hi', hlayer⟩ := hlaid.layer hl
  obtain ⟨a, b, _, _, covers⟩ := hlayer.exists_covers ht
  exact covers.isSlice.1

/-- A free name that its neighbours leave a reference is one of the list. -/
theorem StandsFree.mem_references {ts before after : List Token} {t : Token}
    (h : StandsFree ts before t after)
    (href : isReference before.getLast? t after.head? = true) :
    ⟨t.text, t.position⟩ ∈ references ts := by
  -- By induction on the depth: a template contributes the references of its interpolations.
  induction h with
  | @here before after t hfree =>
    have hclosed := Bool.eq_false_iff.mpr (mt clauseThrough_false_iff.mp hfree)
    rw [references_append_cons, List.mem_append, List.mem_append, contributed, hclosed]
    cases t with
    | template p s inside => exact Bool.noConfusion (hasKind_of_isReference href)
    | plain kind p s =>
      rw [contribution_plain, if_pos href]
      exact .inr (.inl List.mem_cons_self)
  | inside hfree _ ih =>
    rw [references_append_cons, List.mem_append, List.mem_append, contributed_template _ hfree]
    exact .inr (.inl (ih href))

/-- Between its neighbours the name is the object of a member access, and neither a member itself
nor a name that is being declared. -/
structure HeadsAccess (before : List Token) (t : Token) (after : List Token) : Prop where
  isIdentifier : t.hasKind .identifier = true
  followed : after.head?.any (·.isMark ".") = true
  notMember : before.getLast?.any isMemberAccess = false
  notDeclared : before.getLast?.any isDeclaring = false

theorem actsAsKeyword_before_dot {t next : Token} (h : next.isMark "." = true) :
    actsAsKeyword t (some next) = false := by
  simp only [Token.isMark, Token.is, Token.hasKind, Bool.and_eq_true, beq_iff_eq] at h
  obtain ⟨hkind, htext⟩ := h
  simp [actsAsKeyword, Token.isWord, Token.isMark, Token.isOperator, Token.is, Token.hasKind,
    hkind, htext]

theorem HeadsAccess.isReference {before after : List Token} {t : Token}
    (h : HeadsAccess before t after) (hbuiltin : Vocabulary.isBuiltin t.text = false) :
    isReference before.getLast? t after.head? = true := by
  have hfollowed := h.followed
  cases hnext : after.head? with
  | none =>
    rw [hnext] at hfollowed
    exact Bool.noConfusion hfollowed
  | some next =>
    rw [hnext, Option.any_some] at hfollowed
    simp only [Script.isReference, h.isIdentifier, h.notMember, h.notDeclared, hbuiltin,
      actsAsKeyword_before_dot hfollowed]
    decide

/-! ## Built-in names -/

theorem isBuiltin_of_isReference {previous next : Option Token} {t : Token}
    (h : isReference previous t next = true) : Vocabulary.isBuiltin t.text = false := by
  rw [isReference_eq] at h
  simp only [Bool.and_eq_true, Bool.not_eq_true'] at h
  exact h.1.1.2

theorem isBuiltin_of_mem_referencesFrom {previous : Option Token} {isOpen : Bool}
    {ts : List Token} {r : Reference} (h : r ∈ referencesFrom previous isOpen ts) :
    Vocabulary.isBuiltin r.name = false := by
  fun_induction referencesFrom previous isOpen ts with
  | case1 => exact absurd h List.not_mem_nil
  | case2 previous isOpen p s inner ts own ihinner ihrest =>
    rcases List.mem_append.mp h with h | h
    · cases isOpen with
      | true => exact absurd h List.not_mem_nil
      | false => exact ihinner h
    · exact ihrest h
  | case3 _ _ _ _ _ _ _ _ ih => exact ih h
  | case4 _ _ _ _ _ _ _ ih => exact ih h
  | case5 previous _ kind p s ts t _ _ own ih =>
    rcases List.mem_append.mp h with h | h
    · by_cases href : isReference previous t ts.head? = true
      · simp only [own, dif_pos href, List.mem_singleton] at h
        rw [h]
        exact isBuiltin_of_isReference href
      · simp only [own, dif_neg href] at h
        exact absurd h List.not_mem_nil
    · exact ih h

/-- No reference is to a built-in name. -/
theorem isBuiltin_of_mem_references {ts : List Token} {r : Reference} (h : r ∈ references ts) :
    Vocabulary.isBuiltin r.name = false :=
  isBuiltin_of_mem_referencesFrom h

/-- An import that brings only built-in names into scope is unused, whatever the script does with
them. -/
theorem mem_unusedImports_of_isBuiltin {content : String} {filename : Option String} {i : Import}
    (hi : i ∈ (outline content filename).imports) (hne : i.names ≠ [])
    (hbuiltin : ∀ b ∈ i.names, ∃ name, b.localName? i.clause = some name ∧
      Vocabulary.isBuiltin name = true) :
    i ∈ (outline content filename).unusedImports := by
  refine List.mem_filter.mpr ⟨hi, ?_⟩
  rw [Outline.isUnused, Bool.and_eq_true, List.all_eq_true]
  refine ⟨by simpa using hne, fun b hb => ?_⟩
  obtain ⟨name, hlocal, hname⟩ := hbuiltin b hb
  rw [hlocal, Option.any_some, Bool.not_eq_true', Outline.uses, List.any_eq_false]
  intro r hr heq
  rw [beq_iff_eq] at heq
  have hr := isBuiltin_of_mem_references hr
  rw [heq, hname] at hr
  exact Bool.noConfusion hr

/-! ## Used imports -/

/-- An import is not unused when a name that it brings into scope is the object of a member access
at any depth of the script, outside the import clauses, and is no built-in name. -/
theorem not_mem_unusedImports_of_headsAccess {content : String} (filename : Option String)
    {i : Import} {b : Binding} {before after : List Token} {t : Token}
    (hi : i ∈ (outline content filename).imports) (hb : b ∈ i.names)
    (hfree : StandsFree (tokenize content) before t after) (haccess : HeadsAccess before t after)
    (hname : t.text = b.rename.getD b.name) (hbuiltin : Vocabulary.isBuiltin t.text = false) :
    i ∉ (outline content filename).unusedImports := by
  have huses : (outline content filename).uses t.text = true :=
    List.any_eq_true.mpr
      ⟨_, hfree.mem_references (haccess.isReference hbuiltin), beq_self_eq_true t.text⟩
  have hlocal := Binding.localName?_eq (isScriptClause_imports hi) hname hfree.text_ne_empty
  intro hmem
  have hunused := (List.mem_filter.mp hmem).2
  rw [Outline.isUnused_eq_false hb hlocal huses] at hunused
  exact Bool.noConfusion hunused

theorem not_mem_unusedImports_inside_literal :
    ⟨.wholeModule [⟨"*", some "ns"⟩], "m", ⟨1, 1⟩⟩ ∈
        (outline "import * as ns from 'm'\n\x60$\x7bns.a\x7d\x60" none).imports ∧
      StandsFree (tokenize "import * as ns from 'm'\n\x60$\x7bns.a\x7d\x60") []
        (.plain .identifier ⟨2, 4⟩ "ns")
        [.plain .punctuation ⟨2, 6⟩ ".", .plain .identifier ⟨2, 7⟩ "a"] ∧
      ⟨.wholeModule [⟨"*", some "ns"⟩], "m", ⟨1, 1⟩⟩ ∉
        (outline "import * as ns from 'm'\n\x60$\x7bns.a\x7d\x60" none).unusedImports := by
  have htokens : tokenize "import * as ns from 'm'\n\x60$\x7bns.a\x7d\x60" =
      [.plain .keyword ⟨1, 1⟩ "import", .plain .operator ⟨1, 8⟩ "*",
          .plain .identifier ⟨1, 10⟩ "as", .plain .identifier ⟨1, 13⟩ "ns",
          .plain .identifier ⟨1, 16⟩ "from", .plain .string ⟨1, 21⟩ "'m'"] ++
        .template ⟨2, 1⟩ "\x60$\x7bns.a\x7d\x60"
          ([] ++ .plain .identifier ⟨2, 4⟩ "ns" ::
            [.plain .punctuation ⟨2, 6⟩ ".", .plain .identifier ⟨2, 7⟩ "a"]) :: [] := rfl
  have hfree : StandsFree (tokenize "import * as ns from 'm'\n\x60$\x7bns.a\x7d\x60") []
      (.plain .identifier ⟨2, 4⟩ "ns")
      [.plain .punctuation ⟨2, 6⟩ ".", .plain .identifier ⟨2, 7⟩ "a"] := by
    rw [htokens]
    exact .inside (mt clauseThrough_false_iff.mpr (by decide))
      (.here (mt clauseThrough_false_iff.mpr (by decide)))
  have himports : (outline "import * as ns from 'm'\n\x60$\x7bns.a\x7d\x60" none).imports =
      [⟨.wholeModule [⟨"*", some "ns"⟩], "m", ⟨1, 1⟩⟩] := by
    rfl
  have hi := himports ▸
    List.mem_singleton_self (Import.mk (.wholeModule [⟨"*", some "ns"⟩]) "m" ⟨1, 1⟩)
  exact ⟨hi, hfree, not_mem_unusedImports_of_headsAccess none hi List.mem_cons_self hfree
    ⟨by decide, by decide, by decide, by decide⟩ rfl (by decide)⟩

/-- An import that is named like a built-in type is unused in spite of its member access. -/
theorem not_forall_headsAccess_used :
    ¬ ∀ (content : String) (filename : Option String) (i : Import) (b : Binding)
        (before after : List Token) (t : Token),
      i ∈ (outline content filename).imports → b ∈ i.names →
        StandsFree (tokenize content) before t after → HeadsAccess before t after →
          t.text = b.rename.getD b.name → i ∉ (outline content filename).unusedImports := by
  intro h
  obtain ⟨before, after, htokens, hclosed, haccess⟩ : ∃ before after,
      tokenize "import Map from 'm';\nMap.of(1)" =
          before ++ .plain .identifier ⟨2, 1⟩ "Map" :: after ∧
        clauseThrough false (some (.plain .identifier ⟨2, 1⟩ "Map")) before = false ∧
        HeadsAccess before (.plain .identifier ⟨2, 1⟩ "Map") after :=
    ⟨[.plain .keyword ⟨1, 1⟩ "import", .plain .identifier ⟨1, 8⟩ "Map",
        .plain .identifier ⟨1, 12⟩ "from", .plain .string ⟨1, 17⟩ "'m'",
        .plain .punctuation ⟨1, 20⟩ ";"],
      [.plain .punctuation ⟨2, 4⟩ ".", .plain .identifier ⟨2, 5⟩ "of",
        .plain .punctuation ⟨2, 7⟩ "(", .plain .numeric ⟨2, 8⟩ "1",
        .plain .punctuation ⟨2, 9⟩ ")"],
      rfl, by decide, by decide, by decide, by decide, by decide⟩
  have hfree : StandsFree (tokenize "import Map from 'm';\nMap.of(1)") before
      (.plain .identifier ⟨2, 1⟩ "Map") after := by
    rw [htokens]
    exact .here (mt clauseThrough_false_iff.mpr (Bool.eq_false_iff.mp hclosed))
  have himports : (outline "import Map from 'm';\nMap.of(1)" none).imports =
      [⟨.defaultName [⟨"Map", none⟩], "m", ⟨1, 1⟩⟩] := rfl
  have hi := himports ▸
    List.mem_singleton_self (Import.mk (.defaultName [⟨"Map", none⟩]) "m" ⟨1, 1⟩)
  apply h _ none _ ⟨"Map", none⟩ before after _ hi List.mem_cons_self hfree haccess rfl
  apply mem_unusedImports_of_isBuiltin hi (List.cons_ne_nil _ _)
  intro b hb
  obtain rfl := List.mem_singleton.mp hb
  exact ⟨"Map", rfl, by decide⟩

end Script

end SymbolAtlas
