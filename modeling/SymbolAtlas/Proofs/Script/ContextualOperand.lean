import SymbolAtlas.Proofs.Script.OrdinaryName

/-! # Contextual words as operands

A contextual word that stands before another word on its line is taken for a modifier of it. The
binary operators `in` and `instanceof` are words too, so a contextual word that is their left
operand is a reference only where the operator begins a later line.
-/

namespace SymbolAtlas.Script

open Token

def operatorWords : List String := ["in", "instanceof"]

theorem isBuiltin_of_isContextual {word : String} (h : Vocabulary.isContextual word = true) :
    Vocabulary.isBuiltin word = false := by
  have hnone : ∀ word ∈ Vocabulary.contextual, Vocabulary.isBuiltin word = false := by decide
  exact hnone word (List.contains_iff_mem.mp h)

/-- Between its neighbours the contextual word `w` is the left operand of the operator `op`, and
neither a member itself nor a name that is being declared. -/
structure HeadsOperation (before : List Token) (w op : Token) : Prop where
  isIdentifier : w.hasKind .identifier = true
  isContextual : Vocabulary.isContextual w.text = true
  notMember : before.getLast?.any isMemberAccess = false
  notDeclared : before.getLast?.any isDeclaring = false
  isOperator : op.hasKind .keyword = true ∧ op.text ∈ operatorWords

namespace HeadsOperation

variable {before after ts : List Token} {w op : Token}

/-- On one line with the operator, the word is taken for a modifier. -/
theorem actsAsKeyword_eq (h : HeadsOperation before w op) :
    actsAsKeyword w (some op) = (op.line == w.line) := by
  have hword : op.isWord = true := by rw [isWord, h.isOperator.1, Bool.true_or]
  simp [actsAsKeyword, h.isContextual, hword]

theorem isReference_iff (h : HeadsOperation before w op) :
    isReference before.getLast? w (some op) = true ↔ op.line ≠ w.line := by
  rw [isReference, h.isIdentifier, isBuiltin_of_isContextual h.isContextual, h.notMember,
    h.notDeclared, h.actsAsKeyword_eq]
  simp

theorem contributed_eq (h : HeadsOperation before w op)
    (hfree : ¬ LeavesClauseOpen before (some w)) :
    contributed before w (op :: after) =
      if op.line = w.line then [] else [⟨w.text, w.position⟩] := by
  have hkind := h.isIdentifier
  have href := h.isReference_iff
  rw [contributed, Bool.eq_false_iff.mpr (mt clauseThrough_false_iff.mp hfree), List.head?_cons]
  cases w with
  | template p s inside => cases hkind
  | plain kind p s =>
    rw [contribution_plain]
    split
    · next hline => rw [if_neg (href.mp hline)]; rfl
    · next hline => rw [if_pos (not_not.mp (mt href.mpr hline))]

end HeadsOperation

/-- A contextual word that is the left operand of `in` or `instanceof` contributes itself to the
references of its list exactly if the operator is not on its line. So where the operator is on
another line the word is a reference at any depth, and in a source only there. -/
theorem contextual_operand {before : List Token} {w op : Token} (h : HeadsOperation before w op)
    (after : List Token) :
    (¬ LeavesClauseOpen before (some w) → contributed before w (op :: after) =
        if op.line = w.line then [] else [⟨w.text, w.position⟩]) ∧
      (∀ ts, StandsFree ts before w (op :: after) → op.line ≠ w.line →
        ⟨w.text, w.position⟩ ∈ references ts) ∧
      ∀ source, StandsFree (tokenize source) before w (op :: after) →
        (⟨w.text, w.position⟩ ∈ references (tokenize source) ↔ op.line ≠ w.line) := by
  refine ⟨h.contributed_eq, fun ts hfree hline => ?_, fun source hfree => ?_⟩
  · exact hfree.mem_references (h.isReference_iff.mpr hline)
  · rw [mem_references_tokenize_iff hfree.layer_self, List.head?_cons, h.isReference_iff]
    exact and_iff_right hfree

/-- The operator begins the second line. -/
theorem contextual_operand_lines :
    HeadsOperation [] (.plain .identifier ⟨1, 1⟩ "type") (.plain .keyword ⟨2, 1⟩ "in") ∧
      StandsFree (tokenize "type\nin obj") [] (.plain .identifier ⟨1, 1⟩ "type")
        [.plain .keyword ⟨2, 1⟩ "in", .plain .identifier ⟨2, 4⟩ "obj"] ∧
      ⟨"type", ⟨1, 1⟩⟩ ∈ references (tokenize "type\nin obj") := by
  have htokens : tokenize "type\nin obj" = [] ++ .plain .identifier ⟨1, 1⟩ "type" ::
      [.plain .keyword ⟨2, 1⟩ "in", .plain .identifier ⟨2, 4⟩ "obj"] := rfl
  have hfree : StandsFree (tokenize "type\nin obj") [] (.plain .identifier ⟨1, 1⟩ "type")
      [.plain .keyword ⟨2, 1⟩ "in", .plain .identifier ⟨2, 4⟩ "obj"] := by
    rw [htokens]
    exact .here (mt clauseThrough_false_iff.mpr (by decide))
  have h : HeadsOperation [] (.plain .identifier ⟨1, 1⟩ "type") (.plain .keyword ⟨2, 1⟩ "in") :=
    ⟨rfl, rfl, rfl, rfl, rfl, by decide⟩
  exact ⟨h, hfree, ((contextual_operand h _).2.2 _ hfree).mpr (by decide)⟩

/-- On one line the word is no reference. -/
theorem not_forall_contextual_operand :
    ¬ ∀ (source : String) (before after : List Token) (w op x : Token),
      tokenize source = before ++ w :: op :: x :: after → HeadsOperation before w op →
        x.hasKind .identifier = true → ¬ LeavesClauseOpen before (some w) →
          ⟨w.text, w.position⟩ ∈ references (tokenize source) := by
  intro h
  have htokens : tokenize "type in obj" = [] ++ .plain .identifier ⟨1, 1⟩ "type" ::
      [.plain .keyword ⟨1, 6⟩ "in", .plain .identifier ⟨1, 9⟩ "obj"] := rfl
  have hfree : ¬ LeavesClauseOpen [] (some (.plain .identifier ⟨1, 1⟩ "type")) :=
    mt clauseThrough_false_iff.mpr (by decide)
  have hmem := h "type in obj" [] [] _ _ _ htokens ⟨rfl, rfl, rfl, rfl, rfl, by decide⟩ rfl hfree
  have hstands := (htokens ▸ StandsFree.here hfree : StandsFree (tokenize "type in obj") [] _ _)
  have href := ((mem_references_tokenize_iff hstands.layer_self).mp hmem).2
  revert href
  decide

end SymbolAtlas.Script
