import SymbolAtlas.Script.Use

/-! # References token by token

What a token contributes to the references of its list depends on its two neighbours and on
whether an import clause is open before it, so on all the tokens that precede it and on the one
that follows. The references of a list are what its tokens contribute, each between the tokens
around it, and the list can be cut anywhere.
-/

namespace SymbolAtlas.Script

def endsClause (t : Token) : Bool := t.hasKind .string || t.isMark ";"

/-- Whether an import clause is open after the token `t`, if `isOpen` says so before it. -/
def clauseAfter (isOpen : Bool) (t : Token) (next : Option Token) : Bool :=
  if t.is .keyword "import" then isOpen || opensClause next else isOpen && !endsClause t

/-- The references that the token `t` contributes between its neighbours. -/
def contribution (previous : Option Token) (isOpen : Bool) (t : Token) (next : Option Token) :
    List Reference :=
  if isOpen then []
  else
    match t with
    | .plain _ p s => if isReference previous t next then [⟨s, p⟩] else []
    | .template _ _ inside => references inside

theorem contribution_of_open (previous : Option Token) (t : Token) (next : Option Token) :
    contribution previous true t next = [] := rfl

theorem contribution_plain (previous : Option Token) (kind : Token.Kind) (p : Position)
    (s : String) (next : Option Token) :
    contribution previous false (.plain kind p s) next =
      if isReference previous (.plain kind p s) next then [⟨s, p⟩] else [] := rfl

/-- Whether an import clause is open at the end of a part of a token list that `next` follows. -/
def clauseThrough (isOpen : Bool) (next : Option Token) : List Token → Bool
  | [] => isOpen
  | t :: ts => clauseThrough (clauseAfter isOpen t (ts.head?.or next)) next ts

theorem isReference_of_import {t : Token} (h : t.is .keyword "import" = true)
    (previous next : Option Token) : isReference previous t next = false := by
  have hkind : t.hasKind .identifier = false := by
    simp only [Token.is, Token.hasKind, Bool.and_eq_true, beq_iff_eq] at h ⊢
    rw [h.1]
    rfl
  simp [isReference, hkind]

theorem endsClause_of_import {t : Token} (h : t.is .keyword "import" = true) :
    endsClause t = false := by
  simp only [Token.is, Token.hasKind, Bool.and_eq_true, beq_iff_eq] at h
  simp only [endsClause, Token.isMark, Token.is, Token.hasKind, h.1, h.2]
  decide

theorem referencesFrom_cons (previous : Option Token) (isOpen : Bool) (t : Token)
    (ts : List Token) :
    referencesFrom previous isOpen (t :: ts) =
      contribution previous isOpen t ts.head? ++
        referencesFrom (some t) (clauseAfter isOpen t ts.head?) ts := by
  cases t with
  | template p s inside =>
    rw [referencesFrom]
    cases isOpen <;> rfl
  | plain kind p s =>
    rw [referencesFrom]
    by_cases himport : (Token.plain kind p s).is .keyword "import" = true
    · have hnone := isReference_of_import himport previous ts.head?
      simp only [himport, if_true, contribution, hnone, clauseAfter]
      cases isOpen <;> rfl
    · simp only [himport, contribution, clauseAfter, endsClause]
      cases isOpen <;> rfl

/-! ## Open clauses -/

theorem clauseAfter_eq (isOpen : Bool) (t : Token) (next : Option Token) :
    clauseAfter isOpen t next = (clauseAfter false t next || (isOpen && !endsClause t)) := by
  unfold clauseAfter
  split
  · next h =>
    rw [endsClause_of_import h, Bool.false_or, Bool.not_false, Bool.and_true, Bool.or_comm]
  · rfl

/-- A clause that is open before some tokens stays open unless one of them ends it. -/
theorem clauseThrough_eq (isOpen : Bool) (next : Option Token) (ts : List Token) :
    clauseThrough isOpen next ts =
      (clauseThrough false next ts || (isOpen && ts.all (!endsClause ·))) := by
  induction ts generalizing isOpen with
  | nil => cases isOpen <;> rfl
  | cons t ts ih =>
    rw [clauseThrough, clauseThrough, ih, ih (clauseAfter false t _),
      clauseAfter_eq isOpen, List.all_cons]
    cases clauseThrough false next ts <;> cases clauseAfter false t (ts.head?.or next) <;>
      cases isOpen <;> cases endsClause t <;> simp

theorem clauseThrough_append (isOpen : Bool) (next : Option Token) (ts us : List Token) :
    clauseThrough isOpen next (ts ++ us) =
      clauseThrough (clauseThrough isOpen (us.head?.or next) ts) next us := by
  induction ts generalizing isOpen with
  | nil => rfl
  | cons t ts ih =>
    rw [List.cons_append, clauseThrough, ih, List.head?_append, Option.or_assoc]
    rfl

/-- An `import` keyword among the tokens opens a clause that none of those after it ends. -/
def LeavesClauseOpen (ts : List Token) (next : Option Token) : Prop :=
  ∃ before keyword after, ts = before ++ keyword :: after ∧ keyword.is .keyword "import" = true ∧
    opensClause (after.head?.or next) = true ∧ ∀ t ∈ after, endsClause t = false

theorem clauseAfter_false_iff {t : Token} {next : Option Token} :
    clauseAfter false t next = true ↔
      t.is .keyword "import" = true ∧ opensClause next = true := by
  unfold clauseAfter
  split
  · next h => simp [h]
  · next h => simp [h]

theorem clauseThrough_false_iff {next : Option Token} {ts : List Token} :
    clauseThrough false next ts = true ↔ LeavesClauseOpen ts next := by
  induction ts with
  | nil =>
    constructor
    · exact Bool.noConfusion
    · rintro ⟨before, keyword, after, h, _⟩
      cases before <;> cases h
  | cons t ts ih =>
    rw [clauseThrough, clauseThrough_eq, Bool.or_eq_true, Bool.and_eq_true, clauseAfter_false_iff,
      ih, List.all_eq_true]
    constructor
    · rintro (⟨before, keyword, after, rfl, hrest⟩ | ⟨⟨himport, hopens⟩, hall⟩)
      · exact ⟨t :: before, keyword, after, rfl, hrest⟩
      · exact ⟨[], t, ts, rfl, himport, hopens, fun u hu => by simpa using hall u hu⟩
    · rintro ⟨before, keyword, after, h, himport, hopens, hall⟩
      cases before with
      | nil =>
        cases h
        exact .inr ⟨⟨himport, hopens⟩, fun u hu => by simpa using hall u hu⟩
      | cons b before =>
        cases h
        exact .inl ⟨before, keyword, after, rfl, himport, hopens, hall⟩

/-! ## Cutting a list -/

def contributed (before : List Token) (t : Token) (after : List Token) : List Reference :=
  contribution before.getLast? (clauseThrough false (some t) before) t after.head?

def referencesIn (before after : List Token) : List Token → List Reference
  | [] => []
  | t :: ts => contributed before t (ts ++ after) ++ referencesIn (before ++ [t]) after ts

theorem referencesIn_append (before after ts us : List Token) :
    referencesIn before after (ts ++ us) =
      referencesIn before (us ++ after) ts ++ referencesIn (before ++ ts) after us := by
  induction ts generalizing before with
  | nil => rw [List.nil_append, List.append_nil, referencesIn, List.nil_append]
  | cons t ts ih =>
    rw [List.cons_append, referencesIn, ih, referencesIn, List.append_assoc, List.append_assoc,
      List.append_assoc, List.singleton_append]

theorem referencesFrom_eq_referencesIn (before ts : List Token) :
    referencesFrom before.getLast? (clauseThrough false ts.head? before) ts =
      referencesIn before [] ts := by
  induction ts generalizing before with
  | nil => rw [referencesFrom, referencesIn]
  | cons t ts ih =>
    have hclause : clauseAfter (clauseThrough false (some t) before) t ts.head? =
        clauseThrough false ts.head? (before ++ [t]) := by
      rw [clauseThrough_append]
      rfl
    have htail := ih (before ++ [t])
    rw [List.getLast?_concat, ← hclause] at htail
    rw [List.head?_cons, referencesFrom_cons, htail, referencesIn, List.append_nil]
    rfl

theorem references_eq_referencesIn (ts : List Token) : references ts = referencesIn [] [] ts :=
  referencesFrom_eq_referencesIn [] ts

/-- A token adds what it contributes, between the references of the tokens around it. -/
theorem references_append_cons (before after : List Token) (t : Token) :
    references (before ++ t :: after) =
      referencesIn [] (t :: after) before ++
        (contributed before t after ++ referencesIn (before ++ [t]) [] after) := by
  rw [references_eq_referencesIn, referencesIn_append, List.nil_append, List.append_nil,
    referencesIn, List.append_nil]

end SymbolAtlas.Script
