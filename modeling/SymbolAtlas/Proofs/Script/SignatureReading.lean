import SymbolAtlas.Proofs.Script.Balance
import SymbolAtlas.Proofs.Script.ShownSignature

/-! # Signatures are read back

The tokens of a printed signature with an empty body declare the function and nothing else, and
the signature of this function is the printed one. So parsing the signature of a declared function
gives the signature again.
-/

namespace SymbolAtlas.Script

open Token Written

/-! ## Written tokens -/

@[simp] theorem tokensFrom_nil (p : Position) : tokensFrom p [] = [] := rfl

@[simp] theorem tokensFrom_word (p : Position) (s : String) (blanks : List Char)
    (ws : List Written) :
    tokensFrom p (word s blanks :: ws) =
      nameAt p s :: tokensFrom (p.after (word s blanks).chars) ws := rfl

@[simp] theorem tokensFrom_mark (p : Position) (s : String) (blanks : List Char)
    (ws : List Written) :
    tokensFrom p (mark s blanks :: ws) =
      .plain .punctuation p s :: tokensFrom (p.after (mark s blanks).chars) ws := rfl

@[simp] theorem tokensFrom_question (p : Position) (ws : List Written) :
    tokensFrom p (question :: ws) =
      .plain .operator p "?" :: tokensFrom (p.after question.chars) ws := rfl

/-! ## Types and parameters -/

/-- A printed type is read back before tokens that are no type and before which a type can end. -/
theorem typedText_written {terminators : List String} {rest : List Token}
    (hrest : ∀ t ∈ rest.head?, t.hasKind .punctuation = true ∧ t.isMark ":" = false ∧
      terminators.contains t.text = true)
    (text : String) (p : Position) (blanks : List Char) (type : Option ShownWord) :
    typedText terminators text (tokensFrom p (writtenType blanks type) ++ rest) =
      text ++ annotationText type := by
  cases type with
  | none =>
    have hnone : typeWord terminators rest = none := by
      match rest with
      | [] | [_] => rfl
      | t :: type :: rest => simp [typeWord, hrest t rfl]
    rw [writtenType, tokensFrom_nil, List.nil_append, typedText, hnone]
    exact String.append_empty.symm
  | some type =>
    have hsome : typeWord terminators
        (tokensFrom p (writtenType blanks (some type)) ++ rest) = some type.text := by
      cases rest with
      | nil => simp [writtenType, typeWord]
      | cons t rest =>
        have hends := hrest t rfl
        rw [List.contains_iff_mem] at hends
        simp [writtenType, typeWord, hends]
    simp only [typedText, hsome, annotationText, String.append_assoc]

theorem targetText_written (dots : String) (p : Position) (target : ShownTarget) :
    targetText dots (tokensFrom p target.written) = dots ++ target.text := by
  cases target with
  | name shown isOptional type =>
    have htype (text : String) (q : Position) :
        typedText [] text (tokensFrom q (writtenType [] type)) =
          text ++ annotationText type := by
      have h := @typedText_written [] [] (by simp) text q [] type
      rwa [List.append_nil] at h
    have hmark (q : Position) :
        (tokensFrom q (writtenType [] type)).head?.any (·.isOperator "?") = false := by
      cases type <;> simp [writtenType]
    cases isOptional with
    | true =>
      simp [ShownTarget.written, ShownTarget.text, targetText, stepOver, htype, String.append_assoc]
    | false =>
      simp [ShownTarget.written, ShownTarget.text, targetText, hmark, stepOver_of_not (hmark _),
        htype, String.append_assoc]
  | braces => simp [ShownTarget.written, ShownTarget.text, targetText]
  | brackets => simp [ShownTarget.written, ShownTarget.text, targetText]

theorem withoutModifiers_cons {t : Token} {ts : List Token}
    (h : t.isWord = false ∨
      ts.head?.any (fun next => next.isWord || next.isMark "\x7b" || next.isMark "[") = false) :
    withoutModifiers (t :: ts) = t :: ts := by
  cases ts with
  | nil => rfl
  | cons next ts =>
    rw [withoutModifiers, if_neg]
    rintro hmodifier
    rw [Bool.and_eq_true, Bool.and_eq_true] at hmodifier
    rcases h with h | h
    · rw [h] at hmodifier
      cases hmodifier.1.1
    · rw [List.head?_cons, Option.any_some, hmodifier.2] at h
      cases h

/-- No word of a printed parameter stands where a property modifier could. -/
theorem withoutModifiers_written (p : Position) (q : ShownParameter) :
    withoutModifiers (tokensFrom p q.written) = tokensFrom p q.written := by
  obtain ⟨isRest, target⟩ := q
  cases isRest with
  | true => exact withoutModifiers_cons (.inl rfl)
  | false =>
    cases target with
    | name shown isOptional type =>
      refine withoutModifiers_cons (.inr ?_)
      cases isOptional <;> cases type <;> simp [writtenType]
    | braces => exact withoutModifiers_cons (.inl rfl)
    | brackets => exact withoutModifiers_cons (.inl rfl)

theorem parameterText_written (p : Position) (q : ShownParameter) :
    parameterText (tokensFrom p q.written) = q.text := by
  rw [parameterText_eq, withoutModifiers_written]
  obtain ⟨isRest, target⟩ := q
  cases isRest with
  | true => simp [ShownParameter.written, ShownParameter.text, stepOver, targetText_written]
  | false =>
    have hdots : (tokensFrom p target.written).head?.any (·.isMark "...") = false := by
      cases target <;> simp [ShownTarget.written]
    simp [ShownParameter.written, ShownParameter.text, hdots, stepOver_of_not hdots,
      targetText_written]

/-! ## Lists -/

theorem isBalanced_target (p : Position) (target : ShownTarget) :
    isBalanced [","] 0 (tokensFrom p target.written) = true := by
  have hnil : isBalanced [","] 0 [] = true := rfl
  cases target with
  | name shown isOptional type =>
    cases isOptional <;> cases type <;>
      simp [ShownTarget.written, writtenType, isBalanced_cons, bracketDepth, hnil]
  | braces => rfl
  | brackets => rfl

theorem isBalanced_parameter (p : Position) (q : ShownParameter) :
    isBalanced [","] 0 (tokensFrom p q.written) = true := by
  obtain ⟨isRest, target⟩ := q
  cases isRest with
  | true => exact isBalanced_target _ target
  | false => exact isBalanced_target p target

theorem isBalanced_parameters (p : Position) (ps : List ShownParameter) :
    isBalanced [] 0 (tokensFrom p (writtenParameters ps)) = true := by
  fun_induction writtenParameters ps generalizing p with
  | case1 => rfl
  | case2 q => exact isBalanced_weaken (isBalanced_parameter p q)
  | case3 q next ps ih =>
    rw [tokensFrom_append, tokensFrom_mark]
    refine isBalanced_append (isBalanced_weaken (isBalanced_parameter p q)) ?_
    rw [isBalanced_cons]
    exact ⟨fun _ => ⟨rfl, by simp⟩, ih _⟩

theorem angleChange_target (p : Position) (target : ShownTarget) :
    ∀ t ∈ tokensFrom p target.written, angleChange t = 0 := by
  cases target with
  | name shown isOptional type =>
    cases isOptional <;> cases type <;>
      simp [ShownTarget.written, writtenType, angleChange]
  | braces => simp [ShownTarget.written, angleChange]
  | brackets => simp [ShownTarget.written, angleChange]

/-- A printed parameter has no angle brackets. -/
theorem angleChange_parameter (p : Position) (q : ShownParameter) :
    ∀ t ∈ tokensFrom p q.written, angleChange t = 0 := by
  obtain ⟨isRest, target⟩ := q
  cases isRest with
  | true => exact List.forall_mem_cons.mpr ⟨rfl, angleChange_target _ target⟩
  | false => exact angleChange_target p target

/-- Balanced tokens without commas and angle brackets belong to one segment. -/
theorem parameterSegments_append {depth : Nat} {ts : List Token}
    (h : isBalanced [","] depth ts = true) (hangles : ∀ t ∈ ts, angleChange t = 0)
    (segment rest : List Token) :
    parameterSegments depth 0 segment (ts ++ rest) =
      parameterSegments 0 0 (ts.reverse ++ segment) rest := by
  induction ts generalizing depth segment with
  | nil =>
    rw [isBalanced, beq_iff_eq] at h
    rw [h]
    rfl
  | cons t ts ih =>
    rw [isBalanced_cons] at h
    have hangle : angleDepth 0 t = 0 := by
      simp [angleDepth, hangles t List.mem_cons_self]
    have hcomma : (bracketDepth depth t = 0 && (0 : Nat) = 0 && t.isMark "," : Bool) = false := by
      rw [Bool.eq_false_iff]
      intro hstop
      simp only [Bool.and_eq_true, decide_eq_true_eq] at hstop
      obtain ⟨⟨hdepth, -⟩, hmark⟩ := hstop
      -- A comma is no bracket, so it would stand outside every bracket itself.
      obtain ⟨q, rfl⟩ := eq_of_isMark hmark
      have hnone := (h.1 hdepth).2 "," List.mem_cons_self
      cases hnone
    rw [List.cons_append, parameterSegments_cons, hangle, hcomma, if_neg Bool.false_ne_true,
      ih h.2 fun u hu => hangles u (List.mem_cons_of_mem t hu), List.reverse_cons,
      List.append_assoc, List.singleton_append]

theorem parameterSegments_written (p : Position) (q : ShownParameter) (rest : List Token) :
    parameterSegments 0 0 [] (tokensFrom p q.written ++ rest) =
      parameterSegments 0 0 (tokensFrom p q.written).reverse rest := by
  have h := parameterSegments_append (isBalanced_parameter p q) (angleChange_parameter p q) [] rest
  rwa [List.append_nil] at h

theorem parameterSegments_comma (p : Position) (segment rest : List Token) :
    parameterSegments 0 0 segment (.plain .punctuation p "," :: rest) =
      segment.reverse :: parameterSegments 0 0 [] rest := rfl

theorem tokensFrom_parameter_ne_nil (p : Position) (q : ShownParameter) :
    tokensFrom p q.written ≠ [] := by
  obtain ⟨isRest, target⟩ := q
  cases isRest <;> cases target <;> exact List.cons_ne_nil _ _

/-- The segments of a printed list are its parameters, each of which is read back. -/
theorem map_parameterSegments (p : Position) (ps : List ShownParameter) :
    (parameterSegments 0 0 [] (tokensFrom p (writtenParameters ps))).map parameterText =
      ps.map ShownParameter.text := by
  fun_induction writtenParameters ps generalizing p with
  | case1 => rfl
  | case2 q =>
    have hne := tokensFrom_parameter_ne_nil p q
    have hsegments := parameterSegments_written p q []
    rw [List.append_nil] at hsegments
    rw [hsegments, parameterSegments]
    simp [hne, parameterText_written]
  | case3 q next ps ih =>
    rw [tokensFrom_append, tokensFrom_mark, parameterSegments_written, parameterSegments_comma,
      List.map_cons, List.reverse_reverse, parameterText_written, ih]
    rfl

theorem ShownParameter.text_ne_empty (p : ShownParameter) : p.text ≠ "" := by
  have htarget (target : ShownTarget) : target.text.toList ≠ [] := by
    cases target with
    | name shown isOptional type =>
      obtain ⟨c, cs, htext, -⟩ := shown.isWordText
      simp [ShownTarget.text, htext]
    | braces => decide
    | brackets => decide
  intro h
  have hlist := congrArg String.toList h
  rw [text, String.toList_append, String.toList_empty, List.append_eq_nil_iff] at hlist
  exact htarget p.target hlist.2

/-- A printed list before an empty body is read back. -/
theorem parameterTail_written (p q : Position) (l : ShownList) :
    parameterTail (.plain .punctuation p "(" :: tokensFrom q (l.written ++ emptyBody)) =
      l.text := by
  obtain ⟨ps, result⟩ := l
  have hfilter : (ps.map ShownParameter.text).filter (· != "") = ps.map ShownParameter.text := by
    rw [List.filter_eq_self]
    intro text htext
    obtain ⟨p, -, rfl⟩ := List.mem_map.mp htext
    exact bne_iff_ne.mpr p.text_ne_empty
  have hsplit (close : Token) (rest : List Token) (hclose : close.isCloser = true) :
      listTokens (tokensFrom q (writtenParameters ps) ++ close :: rest) =
        (tokensFrom q (writtenParameters ps), rest) := by
    rw [listTokens, untilClosed_append_closer (isBalanced_parameters q ps) hclose]
    rfl
  have hopen : (Token.plain .punctuation p "(").isMark "(" = true := rfl
  rw [ShownList.written, List.append_assoc, tokensFrom_append, List.cons_append, tokensFrom_mark,
    tokensFrom_append, parameterTail_cons, if_pos hopen, hsplit _ _ rfl, map_parameterSegments,
    hfilter, typedText_written]
  · rfl
  · intro t ht
    obtain rfl := Option.some.inj ht
    exact ⟨rfl, rfl, rfl⟩

/-! ## Declarations -/

/-- A word before a mark declares nothing unless a variable statement binds names from there on. -/
theorem declarationsAt_before_mark {before : List Token} {t m : Token} {rest : List Token}
    (hm : m.hasKind .punctuation = true) (hnames : variableNames (m :: rest) = []) :
    declarationsAt before t (m :: rest) = [] := by
  have hdeclarable : isDeclarable m = false := by
    rw [isDeclarable, hasKind_of_ne hm (by decide), Bool.false_and]
  have hstar : m.isOperator "*" = false := by
    rw [isOperator, is, hasKind_of_ne hm (by decide), Bool.false_and]
  have hnamed (form : Declaration.Form) (descriptor : String) (isExported : Bool) :
      namedDeclaration form descriptor isExported (m :: rest) = [] := by
    simp [namedDeclaration, hdeclarable]
  have hfunction (isAsync isExported : Bool) :
      functionDeclaration isAsync isExported (m :: rest) = [] := by
    simp [functionDeclaration_eq, stepOver, hstar, namedFunction, hdeclarable]
  unfold declarationsAt
  split <;> simp [hnames, hnamed, hfunction]

theorem topLevelFrom_body (before : List Token) (p : Position) :
    topLevelFrom before 0 (tokensFrom p emptyBody) = [] := rfl

/-- Nothing is declared by a return type, whichever word it is. -/
theorem topLevelFrom_annotation (before : List Token) (p q : Position) (blanks : List Char)
    (type : Option ShownWord) :
    topLevelFrom before 0 (tokensFrom p (writtenType blanks type) ++ tokensFrom q emptyBody) =
      [] := by
  cases type with
  | none => exact topLevelFrom_body before q
  | some type =>
    have hword (before : List Token) (r : Position) :
        declarationsAt before (nameAt r type.text) (tokensFrom q emptyBody) = [] :=
      declarationsAt_before_mark rfl rfl
    simp [writtenType, topLevelFrom_cons, bracketDepth, hword, topLevelFrom_body]

namespace Signature

theorem isDeclarable_name (σ : Signature) (p : Position) :
    isDeclarable (nameAt p σ.name.text) = true := by
  rw [isDeclarable, text_nameAt, σ.notBuiltin, nameAt, σ.isIdentifier]
  rfl

theorem signatureTail_afterName (σ : Signature) (p : Position) :
    signatureTail (tokensFrom p σ.writtenAfterName) = (σ.list.map ShownList.text).getD "" := by
  rw [writtenAfterName]
  cases σ.list with
  | none => rfl
  | some l => exact parameterTail_written p _ l

theorem declarationsAt_name (σ : Signature) (before : List Token) (p q : Position) :
    declarationsAt before (nameAt p σ.name.text) (tokensFrom q σ.writtenAfterName) = [] := by
  rw [writtenAfterName]
  cases σ.list with
  | none => exact declarationsAt_before_mark rfl rfl
  | some l => exact declarationsAt_before_mark rfl rfl

theorem topLevelFrom_afterName (σ : Signature) (before : List Token) (p : Position) :
    topLevelFrom before 0 (tokensFrom p σ.writtenAfterName) = [] := by
  rw [writtenAfterName]
  cases σ.list with
  | none => rfl
  | some l =>
    simp only
    rw [tokensFrom_mark, ShownList.written, List.append_assoc, tokensFrom_append, List.cons_append,
      tokensFrom_mark, tokensFrom_append,
      topLevelFrom_bracketed rfl rfl (isBalanced_parameters _ _), topLevelFrom_annotation]

/-- The declaration of a printed signature. -/
def declaration (σ : Signature) : Declaration :=
  ⟨.function σ.text, σ.name.text, Position.start.after (σ.head ++ " ").toList, σ.head, false⟩

def namePosition (σ : Signature) : Position := Position.start.after (σ.head ++ " ").toList

theorem functionDeclaration_written (σ : Signature) (p : Position) :
    functionDeclaration σ.isAsync false
        (tokensFrom p σ.writtenStar ++ tokensFrom σ.namePosition σ.writtenTail) =
      [σ.declaration] := by
  have hnamed : namedFunction σ.head false (tokensFrom σ.namePosition σ.writtenTail) =
      [σ.declaration] := by
    rw [writtenTail, tokensFrom_word, namedFunction, if_pos (σ.isDeclarable_name _),
      σ.signatureTail_afterName]
    rfl
  have hname : (tokensFrom σ.namePosition σ.writtenTail).head?.any (·.isOperator "*") = false := by
    simp [writtenTail]
  rw [← hnamed, functionDeclaration_eq, head, writtenStar]
  cases σ.isGenerator with
  | true => rfl
  | false =>
    simp only [Bool.false_eq_true, if_false, tokensFrom_nil, List.nil_append, hname,
      stepOver_of_not hname]

/-- The name of a function and what follows it declare nothing by themselves. -/
theorem topLevelFrom_tail (σ : Signature) (before : List Token) (p : Position) :
    topLevelFrom before 0 (tokensFrom p σ.writtenTail) = [] := by
  rw [writtenTail, tokensFrom_word, topLevelFrom_cons, declarationsAt_name,
    bracketDepth_of_isWord (isWord_nameAt _ _), topLevelFrom_afterName, ite_self, List.nil_append]

theorem topLevelFrom_star (σ : Signature) (before : List Token) (p q : Position) :
    topLevelFrom before 0 (tokensFrom p σ.writtenStar ++ tokensFrom q σ.writtenTail) = [] := by
  rw [writtenStar]
  cases σ.isGenerator with
  | true => exact σ.topLevelFrom_tail _ q
  | false => exact σ.topLevelFrom_tail _ q

/-- The word that introduces the function, after the modifier that the signature shows. -/
theorem topLevelFrom_function (σ : Signature) {before : List Token} {p : Position}
    (hstarts : startsStatement before (nameAt p "function") = true)
    (hasync : before.head?.any (·.isWordOf "async") = σ.isAsync)
    (hexported : isExportedAfter before = false) (q : Position) :
    topLevelFrom before 0 (nameAt p "function" ::
        (tokensFrom q σ.writtenStar ++ tokensFrom σ.namePosition σ.writtenTail)) =
      [σ.declaration] := by
  have hdeclared : declarationsAt before (nameAt p "function")
      (tokensFrom q σ.writtenStar ++ tokensFrom σ.namePosition σ.writtenTail) =
        [σ.declaration] := by
    simp only [declarationsAt, text_nameAt, hstarts, hasync, hexported, if_true,
      functionDeclaration_written]
  rw [topLevelFrom_cons, hdeclared, bracketDepth_of_isWord (isWord_nameAt _ _), topLevelFrom_star,
    isWord_nameAt]
  rfl

/-- The tokens of a printed signature declare the function and nothing else. -/
theorem declarations_written (σ : Signature) :
    declarations (tokensFrom .start σ.written) = [σ.declaration] := by
  have hfound : topLevelFrom [] 0 (tokensFrom .start σ.written) = [σ.declaration] := by
    rw [written, tokensFrom_append, textOf_writtenHead, ← namePosition, writtenHead]
    cases hasync : σ.isAsync with
    | true =>
      have hmodifier (ts : List Token) : topLevelFrom [] 0 (nameAt .start "async" :: ts) =
          topLevelFrom [nameAt .start "async"] 0 ts := rfl
      exact (hmodifier _).trans (@topLevelFrom_function σ [nameAt .start "async"] _ rfl
        hasync.symm rfl _)
    | false => exact @topLevelFrom_function σ [] _ rfl hasync.symm rfl _
  rw [declarations, hfound]
  rfl

/-- A signature with an empty body declares the function and nothing else. -/
theorem declarations_text (σ : Signature) :
    declarations (tokenize (σ.text ++ " \x7b\x7d")) = [σ.declaration] := by
  rw [σ.tokenize_printed, σ.declarations_written]

end Signature

/-- Parsing the signature of a declared function, with an empty body after it, declares the function
and nothing else: by its name and descriptor, with the same signature. -/
theorem declarations_signature (content : String) {d : Declaration} {signature : String}
    (h : d ∈ declarations (tokenize content)) (hform : d.form = .function signature) :
    declarations (tokenize (signature ++ " \x7b\x7d")) =
      [⟨.function signature, d.name, Position.start.after (d.descriptor ++ " ").toList,
        d.descriptor, false⟩] := by
  obtain ⟨σ, rfl, hname, hdescriptor⟩ := exists_signature h hform
  rw [σ.declarations_text, hname, hdescriptor]
  rfl

/-- A property modifier and a default are not shown, and neither is a type that is no word. -/
theorem declarations_signature_partial :
    ⟨.function "async function* f(a?: T, \x7b\x7d, ...[], d): U", "f", ⟨1, 24⟩,
        "async function*", true⟩ ∈ declarations (tokenize
          "export async function* f(public a?: T = 1, \x7bb\x7d: C, ...[c], d: M<K, V>): U \x7b") ∧
      declarations (tokenize
          ("async function* f(a?: T, \x7b\x7d, ...[], d): U" ++ " \x7b\x7d")) =
        [⟨.function "async function* f(a?: T, \x7b\x7d, ...[], d): U", "f", ⟨1, 17⟩,
          "async function*", false⟩] := by
  have h : ⟨.function "async function* f(a?: T, \x7b\x7d, ...[], d): U", "f", ⟨1, 24⟩,
      "async function*", true⟩ ∈ declarations (tokenize
      "export async function* f(public a?: T = 1, \x7bb\x7d: C, ...[c], d: M<K, V>): U \x7b") := by
    decide +kernel
  exact ⟨h, declarations_signature _ h rfl⟩

end SymbolAtlas.Script
