import SymbolAtlas.Proofs.Declaration
import SymbolAtlas.Proofs.Script.Statement

/-! # The names that words declare

Which names a word declares depends on the tokens after it, and on those before it only as far as
they decide whether a statement begins there. Tokens are complete if all their brackets are closed
and none of their words reads on into what follows: then what follows declares on top of what they
declare, whether or not they end with a semicolon.
-/

namespace SymbolAtlas.Script

open Token

def declarableNames (ts : List Token) : List String := (ts.filter isDeclarable).map Token.text

def headName (ts : List Token) : List String :=
  ((ts.head?.filter isDeclarable).map Token.text).toList

/-- The names that the word `t` declares before the tokens `rest`, given whether it begins a
statement. -/
def namesAt (starts : Bool) (t : Token) (rest : List Token) : List String :=
  match t.text with
  | "const" | "let" | "var" =>
    if rest.head?.any (·.isWordOf "enum") then []
    else declarableNames (variableNames rest)
  | "function" => if starts then headName (stepOver (·.isOperator "*") id rest) else []
  | "class" => if starts then headName rest else []
  | "interface" | "enum" => headName rest
  | "type" => if starts && definesAlias rest.tail then headName rest else []
  | _ => []

def namesFrom (before : List Token) (depth : Nat) (ts : List Token) : List String :=
  (topLevelFrom before depth ts).map Declaration.name

theorem names_namedDeclaration (form : Declaration.Form) (descriptor : String) (isExported : Bool)
    (rest : List Token) :
    (namedDeclaration form descriptor isExported rest).map Declaration.name = headName rest := by
  rw [namedDeclaration, headName]
  cases rest.head?.filter isDeclarable <;> rfl

theorem names_functionDeclaration (isAsync isExported : Bool) (rest : List Token) :
    (functionDeclaration isAsync isExported rest).map Declaration.name =
      headName (stepOver (·.isOperator "*") id rest) := by
  rw [functionDeclaration_eq]
  cases stepOver (·.isOperator "*") id rest with
  | nil => rfl
  | cons name ts =>
    rw [namedFunction, headName, List.head?_cons, Option.filter_some]
    split <;> rfl

theorem names_declarationsAt (before : List Token) (t : Token) (rest : List Token) :
    (declarationsAt before t rest).map Declaration.name =
      namesAt (startsStatement before t) t rest := by
  unfold declarationsAt namesAt
  split
  case h_1 heq | h_2 heq | h_3 heq =>
    simp only [heq]
    split
    · rfl
    · rw [List.map_map]
      rfl
  case h_4 heq =>
    simp only [heq]
    split
    · exact names_functionDeclaration _ _ rest
    · rfl
  case h_5 heq =>
    simp only [heq]
    split
    · exact names_namedDeclaration _ _ _ rest
    · rfl
  case h_6 heq | h_8 heq =>
    simp only [heq]
    exact names_namedDeclaration _ _ _ rest
  case h_7 heq =>
    simp only [heq]
    split
    · exact names_namedDeclaration _ _ _ rest
    · rfl
  case h_9 => simp_all

theorem namesFrom_cons (before : List Token) (depth : Nat) (t : Token) (ts : List Token) :
    namesFrom before depth (t :: ts) =
      (if depth = 0 && t.isWord then namesAt (startsStatement before t) t ts else []) ++
        namesFrom (t :: before) (bracketDepth depth t) ts := by
  rw [namesFrom, topLevelFrom_cons, List.map_append, namesFrom]
  congr 1
  split
  · exact names_declarationsAt before t ts
  · rfl

/-- The declared names of a script. -/
theorem declares_declarations_iff {ts : List Token} {name : String} :
    (declarations ts).declares name = true ↔ name ∈ namesFrom [] 0 ts :=
  Declarations.declares_insertAll_nil_iff

/-! ## Complete tokens -/

/-- The words that declare the name after them, and nothing further on. -/
def headWords : List String := ["class", "interface", "enum", "type"]

/-- The tokens close their brackets, and no declaration of theirs is read on into what follows. -/
structure IsComplete (ts : List Token) : Prop where
  closed : depthAfter 0 ts = 0
  within : declarationsWithin 0 ts = true
  last : ∀ t ∈ ts.getLast?, t.text ∉ headWords

theorem headName_append {ts : List Token} (h : ts ≠ []) (more : List Token) :
    headName (ts ++ more) = headName ts := by
  obtain ⟨t, ts, rfl⟩ := List.exists_cons_of_ne_nil h
  rfl

/-- A word that reads within its tokens declares the same names whatever follows. -/
theorem namesAt_append {t : Token} {rest : List Token} (h : readsWithin t rest = true)
    (hlast : rest = [] → t.text ∉ headWords) (starts : Bool) (more : List Token) :
    namesAt starts t (rest ++ more) = namesAt starts t rest := by
  have hne {word : String} (heq : t.text = word) (hword : word ∈ headWords) : rest ≠ [] :=
    fun hnil => hlast hnil (heq ▸ hword)
  unfold readsWithin at h
  unfold namesAt
  split
  case h_1 heq | h_2 heq | h_3 heq =>
    simp only [heq] at h
    exact ofVariables_append h more declarableNames
  case h_4 heq =>
    simp only [heq] at h
    have hname : stepOver (·.isOperator "*") id rest ≠ [] := by
      intro hnil
      rw [hnil] at h
      cases h
    rw [(WalksForward.id.stepOver _).append hname, headName_append hname]
  case h_5 heq => rw [headName_append (hne heq (by decide))]
  case h_6 heq => rw [headName_append (hne heq (by decide))]
  case h_7 heq => rw [headName_append (hne heq (by decide))]
  case h_8 heq =>
    simp only [heq] at h
    have hrest := hne heq (by decide)
    refine ofAlias_append hrest h ?_ (headName_append hrest more) starts
    intro name ts hname
    simp [headName, hname]
  case h_9 => rfl

theorem namesFrom_append {ts before : List Token} {depth : Nat} (hopen : depthAfter depth ts = 0)
    (h : declarationsWithin depth ts = true) (hlast : ∀ t ∈ ts.getLast?, t.text ∉ headWords)
    (more : List Token) :
    namesFrom before depth (ts ++ more) =
      namesFrom before depth ts ++ namesFrom (ts.reverse ++ before) 0 more := by
  induction ts generalizing before depth with
  | nil =>
    obtain rfl : depth = 0 := hopen
    rfl
  | cons t ts ih =>
    rw [declarationsWithin, Bool.and_eq_true] at h
    have hnext : ∀ u ∈ ts.getLast?, u.text ∉ headWords := by
      intro u hu
      apply hlast
      rw [List.getLast?_cons, hu]
      rfl
    have hnames (hword : (depth = 0 && t.isWord : Bool) = true) (starts : Bool) :
        namesAt starts t (ts ++ more) = namesAt starts t ts := by
      have hwithin : readsWithin t ts = true := by
        have hdepth : (depth == 0 && t.isWord) = true := hword
        rw [hdepth, Bool.not_true, Bool.false_or] at h
        exact h.1
      refine namesAt_append hwithin (fun hnil => ?_) starts more
      subst hnil
      exact hlast t rfl
    rw [List.cons_append, namesFrom_cons, namesFrom_cons, ih hopen h.2 hnext, List.append_assoc,
      List.reverse_cons, List.append_assoc, List.singleton_append]
    congr 1
    split
    · next hword => rw [hnames hword]
    · rfl

theorem IsComplete.namesFrom_append {ts : List Token} (h : IsComplete ts)
    (before more : List Token) :
    namesFrom before 0 (ts ++ more) =
      namesFrom before 0 ts ++ namesFrom (ts.reverse ++ before) 0 more :=
  Script.namesFrom_append h.closed h.within h.last more

/-- A word after complete tokens declares its names between theirs and those of what follows. -/
theorem IsComplete.namesFrom_word {ts : List Token} {t : Token} (h : IsComplete ts)
    (hword : t.isWord = true) (more : List Token) :
    namesFrom [] 0 (ts ++ t :: more) =
      namesFrom [] 0 ts ++ (namesAt (startsStatement ts.reverse t) t more ++
        namesFrom (t :: ts.reverse) 0 more) := by
  rw [h.namesFrom_append, List.append_nil, namesFrom_cons, hword, bracketDepth_of_isWord hword]
  rfl

end SymbolAtlas.Script
