import SymbolAtlas.Proofs.Script.Remainder
import SymbolAtlas.Proofs.Token.Category

/-! # A statement and what stands around it

A declaration that is read without coming to the end of its tokens is the same whatever tokens
follow; and what stands before the token after which a statement begins has no part in what the
statement declares.
-/

namespace SymbolAtlas

namespace Script

open Token

/-! ## Semicolons -/

def EndsInSemicolon (ts : List Token) : Prop := ∃ p, ts.getLast? = some (.plain .punctuation p ";")

namespace EndsInSemicolon

variable {ts rest : List Token} {t : Token}

theorem ne_nil (h : EndsInSemicolon ts) : ts ≠ [] := by
  rintro rfl
  obtain ⟨p, h⟩ := h
  cases h

theorem of_suffix (h : EndsInSemicolon ts) (hsuffix : rest <:+ ts) (hrest : rest ≠ []) :
    EndsInSemicolon rest := by
  obtain ⟨p, h⟩ := h
  obtain ⟨before, rfl⟩ := hsuffix
  rw [List.getLast?_append, List.getLast?_eq_some_getLast hrest] at h
  exact ⟨p, (List.getLast?_eq_some_getLast hrest).trans h⟩

/-- What stands after a token other than a semicolon. -/
theorem tail (h : EndsInSemicolon (t :: rest)) (ht : t.isMark ";" = false) :
    EndsInSemicolon rest := by
  cases rest with
  | nil =>
    obtain ⟨p, h⟩ := h
    cases h
    cases ht
  | cons u rest => exact h.of_suffix (List.suffix_cons t _) (List.cons_ne_nil u rest)

end EndsInSemicolon

/-! ## Brackets of a statement -/

/-- The number of open brackets after a token. -/
def bracketDepth (depth : Nat) (t : Token) : Nat :=
  if t.isOpener then depth + 1 else if t.isCloser then depth - 1 else depth

theorem bracketDepth_of_isWord {t : Token} (h : t.isWord = true) (depth : Nat) :
    bracketDepth depth t = depth := by
  rcases Bool.or_eq_true_iff.mp h with h | h
  all_goals
    simp [bracketDepth, isOpener_of_hasKind h (by decide), isCloser_of_hasKind h (by decide)]

def depthAfter (depth : Nat) (ts : List Token) : Nat := ts.foldl bracketDepth depth

/-- A bracket that is open before tokens after which none is open is closed by one of them. -/
theorem isSome_untilClosed {depth k : Nat} {ts : List Token}
    (h : depthAfter (depth + k + 1) ts = 0) : (untilClosed k ts).isSome = true := by
  induction ts generalizing depth k with
  | nil => cases h
  | cons t ts ih =>
    rw [depthAfter, List.foldl_cons, bracketDepth, ← depthAfter] at h
    rw [untilClosed_cons]
    split at h
    · next hopen =>
      rw [if_pos hopen, Option.isSome_map]
      exact @ih depth (k + 1) h
    next hopen =>
    rw [if_neg hopen]
    split at h
    · next hclose =>
      rw [if_pos hclose]
      cases k with
      | zero => rfl
      | succ k =>
        rw [Option.isSome_map]
        exact @ih depth k h
    · next hclose =>
      rw [if_neg hclose, Option.isSome_map]
      exact @ih depth k h

/-- The tokens are the rest of a list after which no bracket is open. -/
def LeavesNoneOpen (ts : List Token) : Prop := ∃ depth, depthAfter depth ts = 0

theorem LeavesNoneOpen.of_suffix {ts rest : List Token} (h : LeavesNoneOpen ts)
    (hsuffix : rest <:+ ts) : LeavesNoneOpen rest := by
  obtain ⟨depth, h⟩ := h
  obtain ⟨before, rfl⟩ := hsuffix
  rw [depthAfter, List.foldl_append] at h
  exact ⟨_, h⟩

/-! ## Signatures -/

theorem isMark_semicolon_of_isCloser {t : Token} (h : t.isCloser = true) :
    t.isMark ";" = false := by
  rw [Bool.eq_false_iff]
  intro hmark
  obtain ⟨p, rfl⟩ := eq_of_isMark hmark
  cases h

/-- A semicolon closes no bracket, so something stands after the bracket that is closed. -/
theorem untilClosed_rest_ne_nil {ts inner rest : List Token} {depth : Nat}
    (hlast : EndsInSemicolon ts) (h : untilClosed depth ts = some (inner, rest)) : rest ≠ [] := by
  induction ts generalizing depth inner with
  | nil => cases h
  | cons t ts ih =>
    rcases untilClosed_cases h with ⟨hclose, rfl⟩ | ⟨n, inner', h⟩
    · exact (hlast.tail (isMark_semicolon_of_isCloser hclose)).ne_nil
    · refine ih (hlast.of_suffix (List.suffix_cons t ts) ?_) h
      rintro rfl
      cases h

theorem typeWord_append {terminators : List String} {ts : List Token}
    (hlast : EndsInSemicolon ts) (more : List Token) :
    typeWord terminators (ts ++ more) = typeWord terminators ts := by
  obtain ⟨p, h⟩ := hlast
  match ts with
  | [] => cases h
  | [a] =>
    cases h
    cases more <;> rfl
  | [a, b] =>
    cases h
    simp [typeWord]
  | a :: b :: c :: ts => rfl

/-- The parameter list and return type of a function, read from after its type parameters. -/
def parameterTail (ts : List Token) : String :=
  match ts with
  | opener :: rest =>
    if opener.isMark "(" then
      let (inner, after) :=
        match untilClosed 0 rest with
        | some split => split
        | none => (rest.dropLast, [])
      let parameters := ((parameterSegments 0 0 [] inner).map parameterText).filter (· != "")
      let list := "(" ++ ", ".intercalate parameters ++ ")"
      match typeWord ["\x7b", ";"] after with
      | some type => list ++ ": " ++ type
      | none => list
    else ""
  | [] => ""

theorem signatureTail_eq (ts : List Token) :
    signatureTail ts = parameterTail (afterTypeParameters ts) := rfl

theorem parameterTail_append {ts : List Token} (hlast : EndsInSemicolon ts)
    (hopen : LeavesNoneOpen ts) (more : List Token) :
    parameterTail (ts ++ more) = parameterTail ts := by
  cases ts with
  | nil => exact absurd rfl hlast.ne_nil
  | cons opener rest =>
    rw [List.cons_append, parameterTail, parameterTail]
    split
    · next hparen =>
      obtain ⟨p, rfl⟩ := eq_of_isMark hparen
      obtain ⟨depth, hdepth⟩ := hopen
      have hclosed : (untilClosed 0 rest).isSome = true := @isSome_untilClosed depth 0 rest hdepth
      obtain ⟨⟨inner, after⟩, hrest⟩ := Option.isSome_iff_exists.mp hclosed
      have hlast : EndsInSemicolon rest := hlast.tail rfl
      have hafter := hlast.of_suffix (untilClosed_suffix hrest)
        (untilClosed_rest_ne_nil hlast hrest)
      simp only [untilClosed_append hrest, hrest, typeWord_append hafter]
    · rfl

/-- A signature whose type parameters are closed is read without the tokens after the statement. -/
theorem signatureTail_append {ts : List Token} (h : afterTypeParameters ts ≠ [])
    (hlast : EndsInSemicolon ts) (hopen : LeavesNoneOpen ts) (more : List Token) :
    signatureTail (ts ++ more) = signatureTail ts := by
  have hsuffix := walksForward_afterTypeParameters.suffix ts
  rw [signatureTail_eq, signatureTail_eq, walksForward_afterTypeParameters.append h]
  exact parameterTail_append (hlast.of_suffix hsuffix h) (hopen.of_suffix hsuffix) more

/-! ## Declarations that end with their statement -/

/-- Whether the declaration that the word `t` introduces is read off `rest` without coming to its
end. -/
def readsWithin (t : Token) (rest : List Token) : Bool :=
  match t.text with
  | "const" | "let" | "var" =>
    rest.head?.any (·.isWordOf "enum") || !(afterDeclarators (rest.length + 1) rest).isEmpty
  | "function" =>
    match stepOver (·.isOperator "*") id rest with
    | name :: rest => !isDeclarable name || !(afterTypeParameters rest).isEmpty
    | [] => false
  | "type" => !rest.head?.any isDeclarable || !(afterTypeParameters rest.tail).isEmpty
  | _ => true

/-- The function declared by the name that heads the tokens, `head` being what stands before it. -/
def namedFunction (head : String) (isExported : Bool) : List Token → List Declaration
  | name :: rest =>
    if isDeclarable name then
      let signature := head ++ " " ++ name.text ++ signatureTail rest
      [declarationOf (.function signature) name head isExported]
    else []
  | [] => []

theorem functionDeclaration_eq (isAsync isExported : Bool) (rest : List Token) :
    functionDeclaration isAsync isExported rest =
      namedFunction ((if isAsync then "async " else "") ++ "function" ++
        if rest.head?.any (·.isOperator "*") then "*" else "") isExported
        (stepOver (·.isOperator "*") id rest) := by
  cases rest with
  | nil => rfl
  | cons t rest =>
    by_cases hstar : t.isOperator "*" = true
    · cases rest <;> simp [functionDeclaration, stepOver, hstar, namedFunction]
    · simp [functionDeclaration, stepOver, hstar, namedFunction]

theorem isMark_of_isDeclarable {t : Token} {s : String} (h : isDeclarable t = true) :
    t.isMark s = false :=
  isMark_of_hasKind (Bool.and_eq_true_iff.mp h).1 (by decide)

theorem isMark_of_isWord {t : Token} {s : String} (h : t.isWord = true) : t.isMark s = false := by
  rcases Bool.or_eq_true_iff.mp h with h | h
  · exact isMark_of_hasKind h (by decide)
  · exact isMark_of_hasKind h (by decide)

/-- What is made of the names of variables whose end stands within the tokens. -/
theorem ofVariables_append {α : Type} {rest : List Token}
    (h : (rest.head?.any (·.isWordOf "enum") ||
      !(afterDeclarators (rest.length + 1) rest).isEmpty) = true)
    (more : List Token) (f : List Token → List α) :
    (if (rest ++ more).head?.any (·.isWordOf "enum") then []
      else f (variableNames (rest ++ more))) =
      if rest.head?.any (·.isWordOf "enum") then [] else f (variableNames rest) := by
  cases rest with
  | nil => cases h
  | cons u us =>
    rw [List.cons_append, List.head?_cons, List.head?_cons]
    split
    · rfl
    · next henum =>
      rw [List.head?_cons, Bool.eq_false_iff.mpr henum, Bool.false_or, Bool.not_eq_true',
        List.isEmpty_eq_false_iff] at h
      rw [variableNames, ← List.cons_append,
        declaratorNames_append (Nat.lt_succ_self _) (Nat.lt_succ_self _) h, variableNames]

/-- What is made of an alias whose equals sign stands within the tokens, if nothing is made of a
name that cannot be declared. -/
theorem ofAlias_append {α : Type} {rest more : List Token} {f : List Token → List α}
    (hne : rest ≠ [])
    (h : (!rest.head?.any isDeclarable || !(afterTypeParameters rest.tail).isEmpty) = true)
    (hnone : ∀ name ts, isDeclarable name = false → f (name :: ts) = [])
    (hf : f (rest ++ more) = f rest) (starts : Bool) :
    (if starts && definesAlias (rest ++ more).tail then f (rest ++ more) else []) =
      if starts && definesAlias rest.tail then f rest else [] := by
  rw [hf]
  obtain ⟨name, ts, rfl⟩ := List.exists_cons_of_ne_nil hne
  rw [List.cons_append, List.tail_cons, List.tail_cons]
  by_cases hname : isDeclarable name = true
  · rw [List.head?_cons, Option.any_some, hname, Bool.not_true, Bool.false_or, Bool.not_eq_true',
      List.isEmpty_eq_false_iff, List.tail_cons] at h
    rw [definesAlias_append h]
  · rw [hnone name ts (Bool.eq_false_iff.mpr hname), ite_self, ite_self]

section Rest

variable {rest : List Token} (hlast : EndsInSemicolon rest) (more : List Token)

include hlast

theorem head?_append_of_ends : (rest ++ more).head? = rest.head? := by
  obtain ⟨t, ts, rfl⟩ := List.exists_cons_of_ne_nil hlast.ne_nil
  rfl

theorem namedDeclaration_append (form : Declaration.Form) (descriptor : String)
    (isExported : Bool) :
    namedDeclaration form descriptor isExported (rest ++ more) =
      namedDeclaration form descriptor isExported rest := by
  rw [namedDeclaration, namedDeclaration, head?_append_of_ends hlast]

theorem namedFunction_append {head : String} {isExported : Bool} (hopen : LeavesNoneOpen rest)
    (h : ∀ name ts, rest = name :: ts → isDeclarable name = true → afterTypeParameters ts ≠ []) :
    namedFunction head isExported (rest ++ more) = namedFunction head isExported rest := by
  obtain ⟨name, ts, rfl⟩ := List.exists_cons_of_ne_nil hlast.ne_nil
  rw [List.cons_append, namedFunction, namedFunction]
  split
  · next hname =>
    have hts := hlast.tail (isMark_of_isDeclarable hname)
    rw [signatureTail_append (h name ts rfl hname) hts
      (hopen.of_suffix (List.suffix_cons name ts))]
  · rfl

theorem aliasDeclaration_append {starts isExported : Bool}
    (h : (!rest.head?.any isDeclarable || !(afterTypeParameters rest.tail).isEmpty) = true) :
    (if starts && definesAlias (rest ++ more).tail then
        namedDeclaration .typeAlias "type" isExported (rest ++ more) else []) =
      if starts && definesAlias rest.tail then
        namedDeclaration .typeAlias "type" isExported rest else [] := by
  refine ofAlias_append hlast.ne_nil h ?_ (namedDeclaration_append hlast more ..) starts
  intro name ts hname
  simp [namedDeclaration, hname]

theorem functionDeclaration_append {isAsync isExported : Bool} (hopen : LeavesNoneOpen rest)
    (h : (match stepOver (·.isOperator "*") id rest with
      | name :: rest => !isDeclarable name || !(afterTypeParameters rest).isEmpty
      | [] => false) = true) :
    functionDeclaration isAsync isExported (rest ++ more) =
      functionDeclaration isAsync isExported rest := by
  have hstar : WalksForward (stepOver (·.isOperator "*") id) := WalksForward.id.stepOver _
  have hsuffix := hstar.suffix rest
  have hname : stepOver (·.isOperator "*") id rest ≠ [] := by
    intro hnil
    rw [hnil] at h
    cases h
  rw [functionDeclaration_eq, functionDeclaration_eq, head?_append_of_ends hlast,
    hstar.append hname]
  refine namedFunction_append (hlast.of_suffix hsuffix hname) more (hopen.of_suffix hsuffix) ?_
  intro name ts heq hdeclarable
  rw [heq] at h
  simpa [hdeclarable] using h

/-- The declaration of a word that is read off the statement alone. -/
theorem declarationsAt_append {t : Token} (hopen : LeavesNoneOpen rest)
    (h : readsWithin t rest = true) (before : List Token) :
    declarationsAt before t (rest ++ more) = declarationsAt before t rest := by
  unfold readsWithin at h
  unfold declarationsAt
  split
  case h_1 heq | h_2 heq | h_3 heq =>
    simp only [heq] at h
    exact ofVariables_append h more fun names => (names.filter isDeclarable).map _
  case h_4 heq =>
    simp only [heq] at h
    simp only [functionDeclaration_append hlast more hopen h]
  case h_5 | h_6 | h_8 => simp only [namedDeclaration_append hlast]
  case h_7 heq =>
    simp only [heq] at h
    exact aliasDeclaration_append hlast more h
  case h_9 => rfl

end Rest

/-! ## What stands before a statement -/

section Before

variable {last t : Token} {near far : List Token}

/-- The modifiers before a word do not reach over a token that is none. -/
theorem takeWhile_isModifier_apart (hlast : isModifier last = false) :
    (near ++ last :: far).takeWhile isModifier = near.takeWhile isModifier := by
  rw [List.takeWhile_append, List.takeWhile_cons_of_neg (Bool.eq_false_iff.mp hlast)]
  split
  · next h =>
    rw [List.append_nil]
    exact ((List.takeWhile_sublist _).eq_of_length h).symm
  · rfl

theorem isExportedAfter_apart (hlast : isModifier last = false) :
    isExportedAfter (near ++ last :: far) = isExportedAfter near := by
  rw [isExportedAfter, takeWhile_isModifier_apart hlast, isExportedAfter]

/-- A statement that begins after `last` begins there whatever stands before `last`. -/
theorem startsStatement_apart (hlast : isModifier last = false)
    (hfirst : ∀ first, (near.reverse ++ [t]).head? = some first →
      startsStatement [last] first = true) :
    startsStatement (near ++ last :: far) t = startsStatement near t := by
  have hnot := Bool.eq_false_iff.mp hlast
  cases hdrop : near.dropWhile isModifier with
  | nil =>
    -- Modifiers only stand between `last` and the word: they and the word begin the statement.
    have htake : near.takeWhile isModifier = near := by
      rw [← List.append_nil (near.takeWhile _), ← hdrop, List.takeWhile_append_dropWhile]
    have hhead : (near.reverse ++ [t]).head? = some (near.getLastD t) := by
      rw [List.head?_append, List.head?_reverse, List.getLastD_eq_getLast?]
      cases near.getLast? <;> rfl
    have hstart := hfirst _ hhead
    simp only [startsStatement, List.takeWhile_cons_of_neg hnot, List.dropWhile_cons_of_neg hnot,
      List.getLastD_nil] at hstart
    simp only [startsStatement, takeWhile_isModifier_apart hlast, List.dropWhile_append, hdrop,
      htake, List.isEmpty_nil, if_true, List.dropWhile_cons_of_neg hnot, hstart]
  | cons previous rest =>
    simp only [startsStatement, takeWhile_isModifier_apart hlast, List.dropWhile_append, hdrop,
      List.isEmpty_cons, Bool.false_eq_true, if_false, List.cons_append]

theorem follows_apart (hlast : isModifier last = false) {word : String}
    (hword : word ∈ declarationModifiers) :
    (near ++ last :: far).head?.any (·.isWordOf word) = near.head?.any (·.isWordOf word) := by
  cases near with
  | cons u near => rfl
  | nil =>
    rw [List.nil_append, List.head?_cons, Option.any_some, List.head?_nil, Option.any_none,
      Bool.eq_false_iff]
    intro h
    rw [isWordOf, Bool.and_eq_true, beq_iff_eq] at h
    rw [isModifier, h.1, h.2, Bool.true_and, List.contains_eq_mem, decide_eq_false_iff_not] at hlast
    exact hlast hword

theorem declarationsAt_apart (hlast : isModifier last = false)
    (hfirst : ∀ first, (near.reverse ++ [t]).head? = some first →
      startsStatement [last] first = true) (rest : List Token) :
    declarationsAt (near ++ last :: far) t rest = declarationsAt near t rest := by
  have follows {word : String} (hword : word ∈ declarationModifiers) :
      (near ++ last :: far).head?.any (·.isWordOf word) = near.head?.any (·.isWordOf word) :=
    follows_apart hlast hword
  have hasync := follows (by decide : "async" ∈ declarationModifiers)
  have habstract := follows (by decide : "abstract" ∈ declarationModifiers)
  have hconst := follows (by decide : "const" ∈ declarationModifiers)
  unfold declarationsAt
  simp only [isExportedAfter_apart hlast, startsStatement_apart hlast hfirst, hasync, habstract,
    hconst]

theorem topLevelFrom_cons (before : List Token) (depth : Nat) (t : Token) (ts : List Token) :
    topLevelFrom before depth (t :: ts) =
      (if depth = 0 && t.isWord then declarationsAt before t ts else []) ++
        topLevelFrom (t :: before) (bracketDepth depth t) ts := rfl

/-- What a statement declares does not depend on what stands before the token after which it
begins. -/
theorem topLevelFrom_apart {ts : List Token} {depth : Nat} (hlast : isModifier last = false)
    (hfirst : ∀ first, (near.reverse ++ ts).head? = some first →
      startsStatement [last] first = true) :
    topLevelFrom (near ++ last :: far) depth ts = topLevelFrom near depth ts := by
  induction ts generalizing near depth with
  | nil => rfl
  | cons t ts ih =>
    have hnear : ∀ first, (near.reverse ++ [t]).head? = some first →
        startsStatement [last] first = true := by
      intro first h
      apply hfirst
      rw [← h]
      cases near.reverse <;> rfl
    have hnext : ∀ first, ((t :: near).reverse ++ ts).head? = some first →
        startsStatement [last] first = true := by
      rwa [List.reverse_cons, List.append_assoc, List.singleton_append]
    rw [topLevelFrom_cons, topLevelFrom_cons, declarationsAt_apart hlast hnear ts,
      ← List.cons_append, ih hnext]

end Before

/-! ## A statement and what follows it -/

/-- Whether every declaration of the tokens is read without coming to their end; `depth` brackets
are open before them. -/
def declarationsWithin (depth : Nat) : List Token → Bool
  | [] => true
  | t :: ts =>
    (!(depth == 0 && t.isWord) || readsWithin t ts) && declarationsWithin (bracketDepth depth t) ts

theorem topLevelFrom_append {ts before : List Token} {depth : Nat}
    (hlast : ts = [] ∨ EndsInSemicolon ts) (hopen : depthAfter depth ts = 0)
    (h : declarationsWithin depth ts = true) (more : List Token) :
    topLevelFrom before depth (ts ++ more) =
      topLevelFrom before depth ts ++ topLevelFrom (ts.reverse ++ before) 0 more := by
  induction ts generalizing before depth with
  | nil =>
    obtain rfl : depth = 0 := hopen
    rfl
  | cons t ts ih =>
    have hends := hlast.resolve_left (List.cons_ne_nil t ts)
    have hnext : ts = [] ∨ EndsInSemicolon ts := by
      rw [Classical.or_iff_not_imp_left]
      exact hends.of_suffix (List.suffix_cons t ts)
    rw [declarationsWithin, Bool.and_eq_true] at h
    have hfound : (if depth = 0 && t.isWord then declarationsAt before t (ts ++ more) else []) =
        if depth = 0 && t.isWord then declarationsAt before t ts else [] := by
      split
      · next hword =>
        have hwithin : readsWithin t ts = true := by
          have hdepth : (depth == 0 && t.isWord) = true := hword
          rw [hdepth, Bool.not_true, Bool.false_or] at h
          exact h.1
        rw [Bool.and_eq_true] at hword
        exact declarationsAt_append (hends.tail (isMark_of_isWord hword.2)) more
          ⟨_, hopen⟩ hwithin before
      · rfl
    rw [List.cons_append, topLevelFrom_cons, topLevelFrom_cons, hfound, ih hnext hopen h.2,
      List.append_assoc, List.reverse_cons, List.append_assoc, List.singleton_append]

end Script

end SymbolAtlas
