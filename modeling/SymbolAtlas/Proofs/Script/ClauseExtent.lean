import Mathlib.Data.List.Basic
import SymbolAtlas.Proofs.Script.Interpolation
import SymbolAtlas.Proofs.Token.Category
import SymbolAtlas.Script.ImportClause
import SymbolAtlas.Token.Scan

/-! # How far an import clause reaches

The imports of a list are read by looking ahead from each `import` keyword; its references are
read with a clause open from the keyword to the next string or semicolon. Where the keyword makes an
import, every token that the open clause keeps from being a reference stands before the string that
names the module. Where it makes none, the clause is open all the same.
-/

namespace SymbolAtlas.Script

/-! ## Readers answer with a later part of the list -/

theorem namespaceBinding_suffix {ts rest : List Token} {b : Binding}
    (h : namespaceBinding ts = some (b, rest)) : rest <:+ ts := by
  unfold namespaceBinding at h
  split at h
  · split at h
    · cases h
      exact (List.suffix_cons _ _).trans (List.suffix_cons _ _)
    · cases h
  · cases h

/-- What is left begins after the name of an entry, or after the name that it is given. -/
theorem renamedEntry_suffix (name : Token) (last : List Token) :
    (if name.isWord || name.hasKind .string then
      match last with
      | a :: rename :: after =>
        if a.isWordOf "as" && rename.isWord then
          (some (Binding.mk (unquote name.text) (some rename.text)), after)
        else (some ⟨unquote name.text, none⟩, last)
      | _ => (some ⟨unquote name.text, none⟩, last)
    else (none, last)).2 <:+ last := by
  split
  · split
    · split
      · exact (List.suffix_cons _ _).trans (List.suffix_cons _ _)
      · exact List.suffix_refl _
    · exact List.suffix_refl _
  · exact List.suffix_refl _

theorem namedEntry_suffix (t : Token) (rest : List Token) : (namedEntry t rest).2 <:+ rest := by
  cases rest with
  | nil => exact renamedEntry_suffix t []
  | cons next after =>
    unfold namedEntry
    by_cases h : isEntryModifier t (next :: after) = true
    · simp only [h, if_true]
      exact (renamedEntry_suffix next after).trans (List.suffix_cons next after)
    · simp only [h]
      exact renamedEntry_suffix t (next :: after)

theorem namedList_suffix (ts : List Token) : (namedList ts).2 <:+ ts := by
  fun_induction namedList ts with
  | case1 => exact List.suffix_refl _
  | case2 => exact List.suffix_cons _ _
  | case3 => exact List.suffix_refl _
  | case4 => exact List.suffix_refl _
  | case5 t ts _ _ _ _ ih => exact ih.trans (List.suffix_cons t ts)
  | case6 t ts _ _ _ _ names rest heq ih =>
    rw [heq] at ih
    exact ih.trans ((namedEntry_suffix t ts).trans (List.suffix_cons t ts))

theorem afterDefault_suffix (b : Binding) (rest : List Token) :
    (afterDefault b rest).2 <:+ rest := by
  unfold afterDefault
  dsimp only
  split
  · next comma opener after =>
    have hafter : after <:+ comma :: opener :: after :=
      (List.suffix_cons _ _).trans (List.suffix_cons _ _)
    split
    · exact (namedList_suffix after).trans hafter
    · split
      · split
        · next heq => exact (namespaceBinding_suffix heq).trans hafter
        · exact List.suffix_refl _
      · exact List.suffix_refl _
  · exact List.suffix_refl _

theorem bindingClause_suffix {ts rest : List Token} {clause : ImportClause}
    (h : bindingClause ts = some (clause, rest)) : rest <:+ ts := by
  unfold bindingClause at h
  split at h
  · cases h
  · next t after =>
    split at h
    · obtain ⟨⟨b, found⟩, hspace, heq⟩ := Option.map_eq_some_iff.mp h
      cases heq
      exact (namespaceBinding_suffix hspace).trans (List.suffix_cons t after)
    · split at h
      · cases h
        exact (namedList_suffix after).trans (List.suffix_cons t after)
      · split at h
        · split at h
          · cases h
          · have heq : (afterDefault ⟨t.text, none⟩ after).2 = rest :=
              congrArg Prod.snd (Option.some.inj h)
            rw [← heq]
            exact (afterDefault_suffix _ after).trans (List.suffix_cons t after)
        · cases h

/-- Without its modifier a clause begins with the same token, or with one that is no string. -/
theorem withoutTypeModifier_cases (ts : List Token) :
    withoutTypeModifier ts = ts ∨
      withoutTypeModifier ts <:+ ts ∧
        headIs (·.hasKind .string) (withoutTypeModifier ts) = false := by
  unfold withoutTypeModifier
  split
  · next t rest =>
    dsimp only
    split
    · next h =>
      refine .inr ⟨List.suffix_cons t rest, ?_⟩
      rw [Bool.and_eq_true] at h
      cases rest with
      | nil => rfl
      | cons n rest =>
        have hn := h.2
        simp only [headIs, List.head?_cons, Option.any_some, Bool.or_eq_true] at hn ⊢
        rcases hn with (hn | hn) | hn
        · exact Token.hasKind_of_ne hn (by decide)
        · exact Token.hasKind_of_ne (Bool.and_eq_true_iff.mp hn).1 (by decide)
        · exact Token.hasKind_of_ne (Bool.and_eq_true_iff.mp hn).1 (by decide)
    · exact .inl rfl
  · exact .inl rfl

/-! ## The string that names the module -/

/-- The string `s` stands between `before` and `after`, and a `from` in front of it makes it the
name of the module `source`. -/
structure NamesModule (before : List Token) (s : Token) (source : String) : Prop where
  follows : before.getLast?.any (·.isWordOf "from") = true
  isString : s.hasKind .string = true
  unquoted : unquote s.text = source

theorem NamesModule.append_left {before : List Token} {s : Token} {source : String}
    (h : NamesModule before s source) (more : List Token) :
    NamesModule (more ++ before) s source where
  follows := by
    have hfollows := h.follows
    rw [List.getLast?_append]
    cases hlast : before.getLast? with
    | none => rw [hlast] at hfollows; cases hfollows
    | some f => rw [hlast] at hfollows; exact hfollows
  isString := h.isString
  unquoted := h.unquoted

theorem exists_namesModule_of_sourceAfter {ts : List Token} {source : String}
    (h : sourceAfter ts = some source) :
    ∃ before s after, ts = before ++ s :: after ∧ NamesModule before s source := by
  fun_induction sourceAfter ts with
  | case1 => cases h
  | case2 => cases h
  | case3 t _ hfrom s rest hstring =>
    cases h
    exact ⟨[t], s, rest, rfl, hfrom, hstring, rfl⟩
  | case4 => cases h
  | case5 => cases h
  | case6 t ts _ _ ih =>
    obtain ⟨before, s, after, rfl, hnames⟩ := ih h
    exact ⟨t :: before, s, after, rfl, hnames.append_left [t]⟩

/-- An import that begins with neither a string nor a call names its module after a `from`. -/
theorem exists_namesModule_of_importAfter {ts : List Token} {clause : ImportClause}
    {source : String} (h : importAfter ts = some (clause, source))
    (hopens : opensClause ts.head? = true) (hstring : headIs (·.hasKind .string) ts = false) :
    ∃ before s after, ts = before ++ s :: after ∧ NamesModule before s source := by
  have hbinding : ∃ rest, rest <:+ ts ∧ sourceAfter rest = some source := by
    have hmodifier : withoutTypeModifier ts <:+ ts ∧
        headIs (·.hasKind .string) (withoutTypeModifier ts) = false := by
      rcases withoutTypeModifier_cases ts with heq | h
      · rw [heq]
        exact ⟨List.suffix_refl ts, hstring⟩
      · exact h
    unfold importAfter at h
    split at h
    · cases h
    · next first rest =>
      simp only [opensClause, List.head?_cons, Option.any_some, Bool.not_or, Bool.and_eq_true,
        Bool.not_eq_true'] at hopens
      simp only [hopens.1, hopens.2, Bool.false_eq_true, if_false] at h
      split at h
      · next heq =>
        rw [heq] at hmodifier
        cases hmodifier.2
      · obtain ⟨⟨found, after⟩, hclause, hsource⟩ := Option.bind_eq_some_iff.mp h
        obtain ⟨found', hfound, heq⟩ := Option.map_eq_some_iff.mp hsource
        cases heq
        exact ⟨after, (bindingClause_suffix hclause).trans hmodifier.1, hfound⟩
  obtain ⟨rest, ⟨pre, rfl⟩, hsource⟩ := hbinding
  obtain ⟨before, s, after, rfl, hnames⟩ := exists_namesModule_of_sourceAfter hsource
  exact ⟨pre ++ before, s, after, (List.append_assoc _ _ _).symm, hnames.append_left pre⟩

/-! ## Hidden tokens -/

/-- The `import` keyword hides the token `t`: it opens a clause that nothing up to `t` ends. -/
structure Hides (keyword : Token) (between : List Token) (t : Token) : Prop where
  isImport : keyword.is .keyword "import" = true
  opens : opensClause (between.head?.or (some t)) = true
  stays : ∀ u ∈ between, endsClause u = false
  stays_at : endsClause t = false

/-- The `import` keyword makes an import, and the token `t` stands between the keyword and the
string that names the module. -/
def LiesInImport (keyword : Token) (between : List Token) (t : Token) (after : List Token) : Prop :=
  ∃ i inner s rest, importAt keyword (between ++ t :: after) = some i ∧
    after = inner ++ s :: rest ∧ NamesModule (between ++ t :: inner) s i.source

theorem Hides.leavesClauseOpen {keyword t : Token} {between : List Token}
    (h : Hides keyword between t) (before : List Token) :
    LeavesClauseOpen (before ++ keyword :: between) (some t) :=
  ⟨before, keyword, between, rfl, h.isImport, h.opens, h.stays⟩

/-- A string before which no clause has ended stands after the tokens of an open clause. -/
theorem Hides.exists_after {keyword t s : Token} {between after before rest : List Token}
    (h : Hides keyword between t) (hs : s.hasKind .string = true)
    (heq : between ++ t :: after = before ++ s :: rest) :
    ∃ inner, after = inner ++ s :: rest ∧ before = between ++ t :: inner := by
  have hends : endsClause s = true := by rw [endsClause, hs, Bool.true_or]
  have hne : ∀ u ∈ between ++ [t], u ≠ s := by
    rintro u hu rfl
    have hstays : endsClause u = false := by
      rcases List.mem_append.mp hu with hu | hu
      · exact h.stays u hu
      · rw [List.mem_singleton.mp hu]
        exact h.stays_at
    rw [hstays] at hends
    cases hends
  rw [List.append_cons between] at heq
  rcases List.append_eq_append_iff.mp heq with ⟨inner, hbefore, hafter⟩ | ⟨inner, hbetween, hrest⟩
  · exact ⟨inner, hafter, hbefore.trans (List.append_assoc between [t] inner)⟩
  · cases inner with
    | nil =>
      rw [List.append_nil] at hbetween
      refine ⟨[], hrest.symm, hbetween.symm⟩
    | cons u inner =>
      cases hrest
      refine absurd rfl (hne s ?_)
      rw [hbetween]
      exact List.mem_append_right _ List.mem_cons_self

theorem Hides.liesInImport {keyword t : Token} {between after : List Token} {i : Import}
    (h : Hides keyword between t) (himport : importAt keyword (between ++ t :: after) = some i) :
    LiesInImport keyword between t after := by
  have hsource : ∃ clause, importAfter (between ++ t :: after) = some (clause, i.source) := by
    unfold importAt at himport
    rw [if_pos h.isImport] at himport
    obtain ⟨⟨clause, source⟩, hafter, rfl⟩ := Option.map_eq_some_iff.mp himport
    exact ⟨clause, hafter⟩
  obtain ⟨clause, hafter⟩ := hsource
  have hopens : opensClause (between ++ t :: after).head? = true := by
    rw [List.head?_append]
    exact h.opens
  have hstring : headIs (·.hasKind .string) (between ++ t :: after) = false := by
    cases between with
    | nil => exact (Bool.or_eq_false_iff.mp h.stays_at).1
    | cons u between => exact (Bool.or_eq_false_iff.mp (h.stays u List.mem_cons_self)).1
  obtain ⟨before, s, rest, heq, hnames⟩ :=
    exists_namesModule_of_importAfter hafter hopens hstring
  obtain ⟨inner, hinner, hbefore⟩ := h.exists_after hnames.isString heq
  exact ⟨i, inner, s, rest, himport, hinner, hbefore ▸ hnames⟩

/-- What an `import` keyword hides contributes no reference; it lies in the import that the keyword
makes exactly if the keyword makes one. -/
theorem hidden_liesInImport_iff (before after : List Token) {keyword t : Token}
    {between : List Token} (h : Hides keyword between t) :
    contributed (before ++ keyword :: between) t after = [] ∧
      (LiesInImport keyword between t after ↔
        importAt keyword (between ++ t :: after) ≠ none) := by
  refine ⟨contributed_of_open after (h.leavesClauseOpen before), ?_, ?_⟩
  · rintro ⟨i, _, _, _, himport, _⟩ hnone
    rw [hnone] at himport
    cases himport
  · intro hsome
    obtain ⟨i, himport⟩ := Option.ne_none_iff_exists'.mp hsome
    exact h.liesInImport himport

theorem hidden_liesInImport_renamed :
    let keyword := Token.plain .keyword ⟨1, 1⟩ "import"
    let between := [Token.plain .punctuation ⟨1, 8⟩ "\x7b", .plain .identifier ⟨1, 10⟩ "a",
      .plain .identifier ⟨1, 12⟩ "as"]
    let t := Token.plain .identifier ⟨1, 15⟩ "b"
    let after := [Token.plain .punctuation ⟨1, 17⟩ "\x7d", .plain .identifier ⟨1, 19⟩ "from",
      .plain .string ⟨1, 24⟩ "'m'"]
    tokenize "import \x7b a as b \x7d from 'm'" = [] ++ keyword :: (between ++ t :: after) ∧
      Hides keyword between t ∧ contributed ([] ++ keyword :: between) t after = [] ∧
        LiesInImport keyword between t after := by
  intro keyword between t after
  have hhides : Hides keyword between t := ⟨by decide, by decide, by decide, by decide⟩
  obtain ⟨hnone, hiff⟩ := hidden_liesInImport_iff [] after hhides
  have himport : importAt keyword (between ++ t :: after) =
      some ⟨.named [⟨"a", some "b"⟩], "m", ⟨1, 1⟩⟩ := by
    decide +kernel
  exact ⟨rfl, hhides, hnone, hiff.mpr (by rw [himport]; exact Option.some_ne_none _)⟩

/-- An assignment of a namespace's member makes no import, but keeps a name on the next line from
being a reference. -/
theorem not_forall_hidden_liesInImport :
    ¬ ∀ (source : String) (before between after : List Token) (keyword t : Token),
      tokenize source = before ++ keyword :: (between ++ t :: after) → Hides keyword between t →
        isReference (before ++ keyword :: between).getLast? t after.head? = true →
          LiesInImport keyword between t after := by
  intro h
  have hlies := h "import A = NS.B\nfoo(A)" []
    [.plain .identifier ⟨1, 8⟩ "A", .plain .operator ⟨1, 10⟩ "=",
      .plain .identifier ⟨1, 12⟩ "NS", .plain .punctuation ⟨1, 14⟩ ".",
      .plain .identifier ⟨1, 15⟩ "B"]
    [.plain .punctuation ⟨2, 4⟩ "(", .plain .identifier ⟨2, 5⟩ "A",
      .plain .punctuation ⟨2, 6⟩ ")"]
    (.plain .keyword ⟨1, 1⟩ "import") (.plain .identifier ⟨2, 1⟩ "foo") rfl
    ⟨by decide, by decide, by decide, by decide⟩ (by decide)
  obtain ⟨i, _, _, _, himport, _⟩ := hlies
  have hnone : importAt (.plain .keyword ⟨1, 1⟩ "import") [.plain .identifier ⟨1, 8⟩ "A",
      .plain .operator ⟨1, 10⟩ "=", .plain .identifier ⟨1, 12⟩ "NS",
      .plain .punctuation ⟨1, 14⟩ ".", .plain .identifier ⟨1, 15⟩ "B",
      .plain .identifier ⟨2, 1⟩ "foo", .plain .punctuation ⟨2, 4⟩ "(",
      .plain .identifier ⟨2, 5⟩ "A", .plain .punctuation ⟨2, 6⟩ ")"] = none := rfl
  cases hnone.symm.trans himport

end SymbolAtlas.Script
