import SymbolAtlas.Proofs.Script.Reference
import SymbolAtlas.Proofs.Token.Layer

/-! # References across interpolations

The interpolations of a template literal are read as one token list, so the tokens of one can keep
those of another from counting as references. An interpolation never gains references that way,
and it loses one exactly where an import clause runs on into it, where the last token before it
declares or accesses a member, or where its last name is a contextual word and the next
interpolation begins on the same line with what such a word introduces.
-/

namespace SymbolAtlas.Script

/-- Whether a name right after the token is not a reference. -/
def unsettles (t : Token) : Bool := isDeclaring t || isMemberAccess t

theorem actsAsKeyword_none (t : Token) : actsAsKeyword t none = false := by
  simp [actsAsKeyword]

theorem isReference_eq (previous : Option Token) (t : Token) (next : Option Token) :
    isReference previous t next =
      (t.hasKind .identifier && !Vocabulary.isBuiltin t.text && !previous.any unsettles &&
        !actsAsKeyword t next) := by
  cases previous with
  | none => simp [isReference]
  | some u =>
    simp only [isReference, unsettles, Option.any_some]
    cases isDeclaring u <;> cases isMemberAccess u <;> simp

/-- A name between more tokens is a reference unless the tokens that join it disturb it. -/
theorem isReference_or (previous previous' next next' : Option Token) (t : Token) :
    isReference (previous.or previous') t (next.or next') =
      (isReference previous t next && !(previous.isNone && previous'.any unsettles) &&
        !(next.isNone && actsAsKeyword t next')) := by
  simp only [isReference_eq]
  cases previous <;> cases next <;> simp [actsAsKeyword_none]
  cases previous'.any unsettles <;> cases actsAsKeyword t next' <;> simp

theorem hasKind_of_isReference {previous next : Option Token} {t : Token}
    (h : isReference previous t next = true) : t.hasKind .identifier = true := by
  rw [isReference_eq] at h
  simp only [Bool.and_eq_true] at h
  exact h.1.1.1

theorem LeavesClauseOpen.append_left {pre : List Token} {next : Option Token}
    (h : LeavesClauseOpen pre next) (before : List Token) :
    LeavesClauseOpen (before ++ pre) next := by
  obtain ⟨before', keyword, after, rfl, hrest⟩ := h
  exact ⟨before ++ before', keyword, after, (List.append_assoc _ _ _).symm, hrest⟩

/-- The tokens around an interpolation keep its token `t` from the references that it contributes
to the interpolation on its own. -/
def Disturbed (before pre : List Token) (t : Token) (post after : List Token) : Prop :=
  contributed pre t post ≠ [] ∧
    (LeavesClauseOpen (before ++ pre) (some t) ∨
      t.hasKind .identifier = true ∧
        (pre = [] ∧ before.getLast?.any unsettles = true ∨
          post = [] ∧ actsAsKeyword t after.head? = true))

theorem contributed_append (before pre : List Token) (t : Token) (post after : List Token) :
    contributed (before ++ pre) t (post ++ after) =
      contribution (pre.getLast?.or before.getLast?) (clauseThrough false (some t) (before ++ pre))
        t (post.head?.or after.head?) := by
  rw [contributed, List.getLast?_append, List.head?_append]

theorem contributed_of_open {pre : List Token} {t : Token} (post : List Token)
    (h : LeavesClauseOpen pre (some t)) : contributed pre t post = [] := by
  rw [contributed, clauseThrough_false_iff.mpr h, contribution_of_open]

theorem contributed_append_eq_iff (before pre : List Token) (t : Token) (post after : List Token) :
    contributed (before ++ pre) t (post ++ after) = contributed pre t post ↔
      ¬ Disturbed before pre t post after := by
  -- An open clause hides every token; otherwise only a name's two neighbours can differ.
  by_cases hopen : LeavesClauseOpen (before ++ pre) (some t)
  · rw [contributed_of_open _ hopen]
    constructor
    · intro h hdisturbed
      exact hdisturbed.1 h.symm
    · intro h
      by_cases hnil : contributed pre t post = []
      · exact hnil.symm
      · exact absurd ⟨hnil, .inl hopen⟩ h
  · have hclosed := Bool.eq_false_iff.mpr (mt clauseThrough_false_iff.mp hopen)
    have hinner := Bool.eq_false_iff.mpr
      (mt clauseThrough_false_iff.mp fun h => hopen (h.append_left before))
    rw [contributed_append, hclosed, Disturbed, contributed, hinner]
    cases t with
    | template p s inside =>
      refine iff_of_true rfl fun h => ?_
      rcases h.2 with h | ⟨hkind, _⟩
      · exact hopen h
      · exact Bool.noConfusion hkind
    | plain kind p s =>
      rw [contribution_plain, contribution_plain, isReference_or]
      by_cases href : isReference pre.getLast? (.plain kind p s) post.head? = true
      · have hkind := hasKind_of_isReference href
        have hpre : pre.getLast?.isNone = true ↔ pre = [] := by
          rw [Option.isNone_iff_eq_none, List.getLast?_eq_none_iff]
        have hpost : post.head?.isNone = true ↔ post = [] := by
          rw [Option.isNone_iff_eq_none, List.head?_eq_none_iff]
        simp only [href, hkind, hopen, Bool.true_and, if_true, false_or, true_and, ← hpre, ← hpost,
          ← Bool.and_eq_true]
        cases pre.getLast?.isNone && before.getLast?.any unsettles <;>
          cases post.head?.isNone && actsAsKeyword (.plain kind p s) after.head? <;> simp
      · rw [Bool.eq_false_iff.mpr href]
        exact iff_of_true rfl fun h => h.1 rfl

/-- Wherever it stands, a token contributes nothing or all that it offers. -/
theorem exists_offer (t : Token) :
    ∃ offer, ∀ previous isOpen next, contribution previous isOpen t next = [] ∨
      contribution previous isOpen t next = offer := by
  cases t with
  | template p s inside =>
    refine ⟨references inside, fun previous isOpen next => ?_⟩
    cases isOpen
    · exact .inr rfl
    · exact .inl rfl
  | plain kind p s =>
    refine ⟨[⟨s, p⟩], fun previous isOpen next => ?_⟩
    cases isOpen
    · rw [contribution_plain]
      split
      · exact .inr rfl
      · exact .inl rfl
    · exact .inl rfl

theorem contributed_append_sublist (before pre : List Token) (t : Token)
    (post after : List Token) :
    (contributed (before ++ pre) t (post ++ after)).Sublist (contributed pre t post) := by
  obtain ⟨offer, hoffer⟩ := exists_offer t
  rcases hoffer (before ++ pre).getLast? (clauseThrough false (some t) (before ++ pre))
    (post ++ after).head? with hnil | houter
  · rw [contributed, hnil]
    exact List.nil_sublist _
  · have heq : contributed (before ++ pre) t (post ++ after) = contributed pre t post := by
      rcases hoffer pre.getLast? (clauseThrough false (some t) pre) post.head? with hnil | hinner
      · exact (contributed_append_eq_iff before pre t post after).mpr fun h => h.1 hnil
      · exact houter.trans hinner.symm
    exact heq ▸ List.Sublist.refl _

/-! ## All tokens of a list -/

theorem append_eq_iff_of_sublist {α : Type} {as as' bs bs' : List α} (ha : as'.Sublist as)
    (hb : bs'.Sublist bs) : as' ++ bs' = as ++ bs ↔ as' = as ∧ bs' = bs := by
  constructor
  · intro h
    have hlength := congrArg List.length h
    rw [List.length_append, List.length_append] at hlength
    have := ha.length_le
    have := hb.length_le
    exact ⟨ha.eq_of_length (by omega), hb.eq_of_length (by omega)⟩
  · rintro ⟨rfl, rfl⟩
    rfl

/-- A property of every way to cut a list at one of its elements. -/
theorem forall_cut_cons {α : Type} {P : List α → α → List α → Prop} {u : α} {us : List α} :
    (∀ pre t post, u :: us = pre ++ t :: post → P pre t post) ↔
      P [] u us ∧ ∀ pre t post, us = pre ++ t :: post → P (u :: pre) t post := by
  constructor
  · intro h
    exact ⟨h [] u us rfl, fun pre t post hus => h (u :: pre) t post (by rw [hus]; rfl)⟩
  · rintro ⟨hhead, htail⟩ pre t post hus
    cases pre with
    | nil => cases hus; exact hhead
    | cons v pre =>
      cases hus
      exact htail pre t post rfl

theorem referencesIn_sublist (before pre ts post after : List Token) :
    (referencesIn (before ++ pre) (post ++ after) ts).Sublist (referencesIn pre post ts) := by
  induction ts generalizing pre with
  | nil => exact List.Sublist.refl _
  | cons t ts ih =>
    rw [referencesIn, referencesIn, ← List.append_assoc, List.append_assoc before]
    exact (contributed_append_sublist _ _ _ _ _).append (ih (pre ++ [t]))

/-- Tokens on both sides of a list leave its references as they are exactly if they disturb none
of its tokens. -/
theorem referencesIn_eq_iff (before pre ts post after : List Token) :
    referencesIn (before ++ pre) (post ++ after) ts = referencesIn pre post ts ↔
      ∀ us t vs, ts = us ++ t :: vs → ¬ Disturbed before (pre ++ us) t (vs ++ post) after := by
  induction ts generalizing pre with
  | nil =>
    refine iff_of_true rfl fun us t vs h => ?_
    cases us <;> cases h
  | cons t ts ih =>
    -- No contribution grows, so the whole lists agree only if every contribution does.
    have hhead := contributed_append_sublist before pre t (ts ++ post) after
    have htail := referencesIn_sublist before (pre ++ [t]) ts post after
    rw [forall_cut_cons, referencesIn, referencesIn, ← List.append_assoc,
      List.append_assoc before, append_eq_iff_of_sublist hhead htail, contributed_append_eq_iff,
      ih, List.append_nil]
    simp only [List.append_assoc, List.singleton_append]

/-! ## The interpolations of one literal -/

/-- No token of an interpolation is disturbed by the tokens of the others. -/
def Undisturbed (groups : List (List Token)) : Prop :=
  ∀ before group after, groups = before ++ group :: after →
    ∀ pre t post, group = pre ++ t :: post → ¬ Disturbed before.flatten pre t post after.flatten

theorem referencesIn_flatten_sublist (before : List Token) (groups : List (List Token)) :
    (referencesIn before [] groups.flatten).Sublist (groups.map references).flatten := by
  induction groups generalizing before with
  | nil => exact List.Sublist.refl _
  | cons group groups ih =>
    have hhead := referencesIn_sublist before [] group [] groups.flatten
    rw [List.append_nil, List.nil_append, ← references_eq_referencesIn] at hhead
    rw [List.flatten_cons, List.map_cons, List.flatten_cons, referencesIn_append, List.append_nil]
    exact hhead.append (ih (before ++ group))

theorem referencesIn_flatten_eq_iff (before : List Token) (groups : List (List Token)) :
    referencesIn before [] groups.flatten = (groups.map references).flatten ↔
      ∀ before' group after, groups = before' ++ group :: after →
        ∀ pre t post, group = pre ++ t :: post →
          ¬ Disturbed (before ++ before'.flatten) pre t post after.flatten := by
  induction groups generalizing before with
  | nil =>
    refine iff_of_true rfl fun before' group after h => ?_
    cases before' <;> cases h
  | cons group groups ih =>
    have hhead := referencesIn_sublist before [] group [] groups.flatten
    have hiff := referencesIn_eq_iff before [] group [] groups.flatten
    rw [List.append_nil, List.nil_append, ← references_eq_referencesIn] at hhead hiff
    have htail := referencesIn_flatten_sublist (before ++ group) groups
    rw [forall_cut_cons, List.flatten_cons, List.map_cons, List.flatten_cons, referencesIn_append,
      List.append_nil, append_eq_iff_of_sublist hhead htail, hiff, ih]
    simp only [List.nil_append, List.append_nil, List.append_assoc, List.flatten_nil,
      List.flatten_cons]

/-- Interpolations that are read as one list keep their references exactly if none of them
disturbs another. -/
theorem references_flatten_eq_iff (groups : List (List Token)) :
    references groups.flatten = (groups.map references).flatten ↔ Undisturbed groups := by
  rw [references_eq_referencesIn]
  exact referencesIn_flatten_eq_iff [] groups

theorem contributed_template {before : List Token} {p : Position} {s : String}
    {inside : List Token} (after : List Token)
    (h : ¬ LeavesClauseOpen before (some (.template p s inside))) :
    contributed before (.template p s inside) after = references inside := by
  rw [contributed, Bool.eq_false_iff.mpr (mt clauseThrough_false_iff.mp h)]
  rfl

/-- The exact condition under which a template literal contributes the references of its
interpolations one after another: where no import clause is open, none of them disturbs another,
and where one is open, none of them has a reference. -/
theorem contributed_interpolations_iff (source : String) {before after inside : List Token}
    {p : Position} {s : String}
    (h : Token.Layer (tokenize source) (before ++ .template p s inside :: after)) :
    (∃ groups isClosed, Token.IsLiteral source.toList (.template p s inside) groups isClosed) ∧
      ∀ groups isClosed, Token.IsLiteral source.toList (.template p s inside) groups isClosed →
        (contributed before (.template p s inside) after = (groups.map references).flatten ↔
          LeavesClauseOpen before (some (.template p s inside)) ∧
              (∀ group ∈ groups, references group = []) ∨
            ¬ LeavesClauseOpen before (some (.template p s inside)) ∧ Undisturbed groups) := by
  refine ⟨h.exists_isLiteral (List.mem_append_right _ List.mem_cons_self), ?_⟩
  intro groups isClosed hliteral
  by_cases hopen : LeavesClauseOpen before (some (.template p s inside))
  · simp only [contributed_of_open _ hopen, hopen, true_and, not_true_eq_false, false_and,
      or_false]
    rw [eq_comm, List.flatten_eq_nil_iff, List.forall_mem_map]
  · rw [contributed_template _ hopen, hliteral.inside_eq, references_flatten_eq_iff]
    rw [hliteral.inside_eq] at hopen
    simp only [hopen, false_and, false_or, not_false_eq_true, true_and]

theorem contributed_interpolations_of_names :
    Token.Layer (tokenize "\x60$\x7ba\x7d$\x7bb\x7d\x60")
        ([] ++ .template ⟨1, 1⟩ "\x60$\x7ba\x7d$\x7bb\x7d\x60"
          [.plain .identifier ⟨1, 4⟩ "a", .plain .identifier ⟨1, 8⟩ "b"] :: []) ∧
      ∃ isClosed,
        Token.IsLiteral "\x60$\x7ba\x7d$\x7bb\x7d\x60".toList
            (.template ⟨1, 1⟩ "\x60$\x7ba\x7d$\x7bb\x7d\x60"
              [.plain .identifier ⟨1, 4⟩ "a", .plain .identifier ⟨1, 8⟩ "b"])
            [[.plain .identifier ⟨1, 4⟩ "a"], [.plain .identifier ⟨1, 8⟩ "b"]] isClosed ∧
          Undisturbed
            [[.plain .identifier ⟨1, 4⟩ "a"], [.plain .identifier ⟨1, 8⟩ "b"]] := by
  have hlayer : Token.Layer (tokenize "\x60$\x7ba\x7d$\x7bb\x7d\x60")
      ([] ++ .template ⟨1, 1⟩ "\x60$\x7ba\x7d$\x7bb\x7d\x60"
        [.plain .identifier ⟨1, 4⟩ "a", .plain .identifier ⟨1, 8⟩ "b"] :: []) := .outer
  obtain ⟨isClosed, hliteral⟩ :=
    Token.isLiteral_of_backquote (Cursor.ofList_isIn "\x60$\x7ba\x7d$\x7bb\x7d\x60".toList) rfl
  refine ⟨hlayer, isClosed, hliteral, ?_⟩
  have hreferences : contributed [] (.template ⟨1, 1⟩ "\x60$\x7ba\x7d$\x7bb\x7d\x60"
      [.plain .identifier ⟨1, 4⟩ "a", .plain .identifier ⟨1, 8⟩ "b"]) [] =
      ([[.plain .identifier ⟨1, 4⟩ "a"], [.plain .identifier ⟨1, 8⟩ "b"]].map
        references).flatten := by
    change references _ = [references _, references _].flatten
    simp only [references_eq_referencesIn]
    rfl
  rcases ((contributed_interpolations_iff _ hlayer).2 _ _ hliteral).mp hreferences with
    ⟨hopen, _⟩ | ⟨_, hundisturbed⟩
  · obtain ⟨before, keyword, after, h, _⟩ := hopen
    cases before <;> cases h
  · exact hundisturbed

/-- The word of one interpolation hides the name in the next. -/
theorem not_contributed_separately :
    ¬ ∀ (source : String) (before after inside : List Token) (p : Position) (s : String)
        (groups : List (List Token)) (isClosed : Bool),
      Token.Layer (tokenize source) (before ++ .template p s inside :: after) →
        Token.IsLiteral source.toList (.template p s inside) groups isClosed →
          contributed before (.template p s inside) after = (groups.map references).flatten := by
  intro h
  obtain ⟨isClosed, hliteral⟩ := Token.isLiteral_of_backquote
    (Cursor.ofList_isIn "\x60$\x7bfrom\x7d$\x7bto\x7d\x60".toList) rfl
  have heq : references [.plain .identifier ⟨1, 4⟩ "from", .plain .identifier ⟨1, 11⟩ "to"] =
      [references [.plain .identifier ⟨1, 4⟩ "from"],
        references [.plain .identifier ⟨1, 11⟩ "to"]].flatten :=
    h "\x60$\x7bfrom\x7d$\x7bto\x7d\x60" [] [] _ _ _ _ isClosed .outer hliteral
  simp only [references_eq_referencesIn] at heq
  have habsurd : [] = [Reference.mk "from" ⟨1, 4⟩, Reference.mk "to" ⟨1, 11⟩] := heq
  cases habsurd

end SymbolAtlas.Script
