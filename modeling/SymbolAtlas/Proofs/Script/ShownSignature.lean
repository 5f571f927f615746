import SymbolAtlas.Proofs.Script.DeclaredName
import SymbolAtlas.Proofs.Script.PrintedSignature

/-! # What a signature shows

However a parameter list is written, also where it breaks off, what its signature shows are words
of the source, marks of its own and empty brackets. So the signature of every declared function is
one of those that can be printed.
-/

namespace SymbolAtlas.Script

open Token

/-- The words among the tokens are scanned as words wherever they are written. -/
def HasWordTexts (ts : List Token) : Prop := ∀ t ∈ ts, t.isWord = true → IsWordText t.text

theorem HasWordTexts.mono {ts us : List Token} (h : HasWordTexts ts) (hsub : us ⊆ ts) :
    HasWordTexts us :=
  fun t ht => h t (hsub ht)

theorem hasWordTexts_tokenize (content : String) : HasWordTexts (tokenize content) :=
  fun _ ht hword => (Layer.isWordText .outer ht hword).2

/-! ## Types and parameters -/

def typedText (terminators : List String) (text : String) (ts : List Token) : String :=
  match typeWord terminators ts with
  | some type => text ++ ": " ++ type
  | none => text

theorem typedText_eq {terminators : List String} {ts : List Token} (h : HasWordTexts ts)
    (text : String) :
    ∃ type : Option ShownWord, typedText terminators text ts = text ++ annotationText type := by
  unfold typedText
  cases htype : typeWord terminators ts with
  | none => exact ⟨none, (String.append_empty).symm⟩
  | some type =>
    match ts with
    | [] => cases htype
    | [_] => cases htype
    | colon :: word :: rest =>
      simp only [typeWord, Option.ite_none_right_eq_some, Option.some.injEq,
        Bool.and_eq_true] at htype
      obtain ⟨⟨⟨-, hword⟩, -⟩, rfl⟩ := htype
      refine ⟨some ⟨word.text, h word (by simp) hword⟩, ?_⟩
      simp only [annotationText, String.append_assoc]

def targetText (dots : String) : List Token → String
  | [] => ""
  | head :: rest =>
    if head.isMark "\x7b" then dots ++ "\x7b\x7d"
    else if head.isMark "[" then dots ++ "[]"
    else if head.isWord then
      typedText [] (dots ++ head.text ++ if rest.head?.any (·.isOperator "?") then "?" else "")
        (stepOver (·.isOperator "?") id rest)
    else ""

section TargetText

variable {dots : String} {head t : Token} {rest : List Token}

theorem targetText_optional (h : t.isOperator "?" = true) :
    targetText dots (head :: t :: rest) =
      if head.isMark "\x7b" then dots ++ "\x7b\x7d"
      else if head.isMark "[" then dots ++ "[]"
      else if head.isWord then typedText [] (dots ++ head.text ++ "?") rest
      else "" := by
  rw [targetText, List.head?_cons, Option.any_some, stepOver, if_pos h, if_pos h, id]

theorem targetText_required (h : rest.head?.any (·.isOperator "?") = false) :
    targetText dots (head :: rest) =
      if head.isMark "\x7b" then dots ++ "\x7b\x7d"
      else if head.isMark "[" then dots ++ "[]"
      else if head.isWord then typedText [] (dots ++ head.text) rest
      else "" := by
  rw [targetText, stepOver_of_not h, h, if_neg Bool.false_ne_true, String.append_empty]

end TargetText

/-- The question mark after a parameter's name is looked for once, with what follows it. -/
theorem targetText_cons (dots : String) (head : Token) (rest : List Token) :
    targetText dots (head :: rest) =
      if head.isMark "\x7b" then dots ++ "\x7b\x7d"
      else if head.isMark "[" then dots ++ "[]"
      else if head.isWord then
        let (name, rest) :=
          match rest with
          | t :: more =>
            if t.isOperator "?" then (dots ++ head.text ++ "?", more) else (dots ++ head.text, rest)
          | [] => (dots ++ head.text, rest)
        typedText [] name rest
      else "" := by
  cases rest with
  | nil => exact targetText_required rfl
  | cons u more =>
    by_cases hmark : u.isOperator "?" = true
    · rw [targetText_optional hmark]
      simp only [hmark, if_true]
    · rw [Bool.not_eq_true] at hmark
      rw [targetText_required (show (u :: more).head?.any (·.isOperator "?") = false from hmark)]
      simp only [hmark, Bool.false_eq_true, if_false]

theorem parameterText_eq (segment : List Token) :
    parameterText segment =
      targetText (if (withoutModifiers segment).head?.any (·.isMark "...") then "..." else "")
        (stepOver (·.isMark "...") id (withoutModifiers segment)) := by
  unfold parameterText
  cases withoutModifiers segment with
  | nil => rfl
  | cons t rest =>
    rw [List.head?_cons, Option.any_some, stepOver]
    by_cases hdots : t.isMark "..." = true
    · simp only [hdots, if_true, id]
      cases rest with
      | nil => rfl
      | cons head rest => exact (targetText_cons "..." head rest).symm
    · simp only [hdots, Bool.false_eq_true, if_false]
      exact (targetText_cons "" t rest).symm

theorem withoutModifiers_suffix (segment : List Token) : withoutModifiers segment <:+ segment := by
  fun_induction withoutModifiers segment with
  | case1 t next rest _ ih => exact ih.trans (List.suffix_cons t _)
  | case2 => exact List.suffix_rfl
  | case3 => exact List.suffix_rfl

theorem targetText_eq {ts : List Token} (h : HasWordTexts ts) (dots : String) :
    targetText dots ts = "" ∨ ∃ target : ShownTarget, targetText dots ts = dots ++ target.text := by
  cases ts with
  | nil => exact .inl rfl
  | cons head rest =>
    rw [targetText]
    split
    · exact .inr ⟨.braces, rfl⟩
    split
    · exact .inr ⟨.brackets, rfl⟩
    split
    · next hword =>
      have hrest : stepOver (·.isOperator "?") id rest ⊆ head :: rest :=
        List.Subset.trans ((WalksForward.id.stepOver _).suffix rest).subset
          (List.subset_cons_self head rest)
      obtain ⟨type, htype⟩ := @typedText_eq [] _ (h.mono hrest)
        (dots ++ head.text ++ if rest.head?.any (·.isOperator "?") then "?" else "")
      refine .inr ⟨.name ⟨head.text, h head List.mem_cons_self hword⟩
        (rest.head?.any (·.isOperator "?")) type, ?_⟩
      rw [htype, ShownTarget.text]
      simp only [String.append_assoc]
    · exact .inl rfl

/-- The text of a parameter is that of a parameter that a signature can show, or it shows none. -/
theorem parameterText_shown {segment : List Token} (h : HasWordTexts segment) :
    parameterText segment = "" ∨ ∃ p : ShownParameter, parameterText segment = p.text := by
  have hsub := ((WalksForward.id.stepOver (·.isMark "...")).suffix _).trans
    (withoutModifiers_suffix segment)
  rw [parameterText_eq]
  refine (targetText_eq (h.mono hsub.subset) _).imp_right ?_
  rintro ⟨target, htarget⟩
  exact ⟨⟨_, target⟩, htarget⟩

/-! ## Lists -/

theorem parameterSegments_cons (depth angles : Nat) (segment : List Token) (t : Token)
    (ts : List Token) :
    parameterSegments depth angles segment (t :: ts) =
      if bracketDepth depth t = 0 && angleDepth angles t = 0 && t.isMark "," then
        segment.reverse :: parameterSegments (bracketDepth depth t) (angleDepth angles t) [] ts
      else parameterSegments (bracketDepth depth t) (angleDepth angles t) (t :: segment) ts := rfl

/-- The segments of a parameter list have no tokens but those of the list. -/
theorem subset_of_mem_parameterSegments {depth angles : Nat} {segment ts piece : List Token}
    (h : piece ∈ parameterSegments depth angles segment ts) : piece ⊆ segment ++ ts := by
  induction ts generalizing depth angles segment with
  | nil =>
    rw [parameterSegments] at h
    split at h
    · cases h
    · rw [List.mem_singleton.mp h, List.append_nil]
      exact List.reverse_subset.mpr (List.Subset.refl segment)
  | cons t ts ih =>
    have hlater {segment' : List Token} {depth angles : Nat} (hsegment : segment' ⊆ t :: segment)
        (h : piece ∈ parameterSegments depth angles segment' ts) : piece ⊆ segment ++ t :: ts := by
      refine List.Subset.trans (ih h) (List.append_subset.mpr ⟨List.Subset.trans hsegment ?_, ?_⟩)
      · exact List.cons_subset.mpr ⟨by simp, List.subset_append_left _ _⟩
      · exact List.Subset.trans (List.subset_cons_self t ts) (List.subset_append_right _ _)
    rw [parameterSegments_cons] at h
    split at h
    · rcases List.mem_cons.mp h with rfl | h
      · exact List.reverse_subset.mpr (List.subset_append_left _ _)
      · exact hlater (List.nil_subset _) h
    · exact hlater (List.Subset.refl _) h

theorem exists_shownParameters {segments : List (List Token)}
    (h : ∀ segment ∈ segments, HasWordTexts segment) :
    ∃ ps : List ShownParameter,
      (segments.map parameterText).filter (· != "") = ps.map ShownParameter.text := by
  induction segments with
  | nil => exact ⟨[], rfl⟩
  | cons segment segments ih =>
    obtain ⟨ps, hps⟩ := ih fun s hs => h s (List.mem_cons_of_mem segment hs)
    rw [List.map_cons, List.filter_cons, hps]
    split
    · next hne =>
      rcases parameterText_shown (h segment List.mem_cons_self) with hnone | ⟨p, hp⟩
      · rw [hnone] at hne
        cases hne
      · exact ⟨p :: ps, by rw [hp, List.map_cons]⟩
    · exact ⟨ps, rfl⟩

theorem untilClosed_inner_subset {depth : Nat} {ts inner rest : List Token}
    (h : untilClosed depth ts = some (inner, rest)) : inner ⊆ ts := by
  induction ts generalizing depth inner with
  | nil => cases h
  | cons t ts ih =>
    have hlater {n : Nat} (h : (untilClosed n ts).map (fun read => (t :: read.1, read.2)) =
        some (inner, rest)) : inner ⊆ t :: ts := by
      obtain ⟨⟨inner', _⟩, hinner, heq⟩ := Option.map_eq_some_iff.mp h
      cases heq
      exact List.cons_subset_cons t (ih hinner)
    rw [untilClosed_cons] at h
    split at h
    · exact hlater h
    split at h
    · cases depth with
      | zero =>
        cases h
        exact List.nil_subset _
      | succ depth => exact hlater h
    · exact hlater h

/-- The tokens of a parameter list and those after it; the last token is taken for the closing
bracket if there is none. -/
def listTokens (ts : List Token) : List Token × List Token :=
  (untilClosed 0 ts).getD (ts.dropLast, [])

theorem listTokens_subset (ts : List Token) : (listTokens ts).1 ⊆ ts ∧ (listTokens ts).2 ⊆ ts := by
  rw [listTokens]
  cases hsplit : untilClosed 0 ts with
  | none => exact ⟨List.dropLast_subset ts, List.nil_subset ts⟩
  | some split => exact ⟨untilClosed_inner_subset hsplit, (untilClosed_suffix hsplit).subset⟩

theorem parameterTail_cons (opener : Token) (rest : List Token) :
    parameterTail (opener :: rest) =
      if opener.isMark "(" then
        typedText ["\x7b", ";"]
          ("(" ++ ", ".intercalate (((parameterSegments 0 0 [] (listTokens rest).1).map
            parameterText).filter (· != "")) ++ ")") (listTokens rest).2
      else "" := by
  rw [parameterTail, listTokens]
  cases untilClosed 0 rest <;> rfl

theorem exists_parameterTail {ts : List Token} (h : HasWordTexts ts) :
    ∃ list : Option ShownList, parameterTail ts = (list.map ShownList.text).getD "" := by
  cases ts with
  | nil => exact ⟨none, rfl⟩
  | cons opener rest =>
    rw [parameterTail_cons]
    split
    · have hrest := h.mono (List.subset_cons_self opener rest)
      obtain ⟨hinner, hafter⟩ := listTokens_subset rest
      have hsegments : ∀ segment ∈ parameterSegments 0 0 [] (listTokens rest).1,
          HasWordTexts segment := fun segment hsegment =>
        (hrest.mono hinner).mono (subset_of_mem_parameterSegments hsegment)
      obtain ⟨ps, hps⟩ := exists_shownParameters hsegments
      obtain ⟨type, htype⟩ := @typedText_eq ["\x7b", ";"] _ (hrest.mono hafter)
        ("(" ++ ", ".intercalate (ps.map ShownParameter.text) ++ ")")
      exact ⟨some ⟨ps, type⟩, by rw [hps, htype]; rfl⟩
    · exact ⟨none, rfl⟩

/-! ## Functions -/

/-- The signature of a declared function is one that can be printed, and it shows the name and the
descriptor of the function. -/
theorem exists_signature {content : String} {d : Declaration} {text : String}
    (h : d ∈ declarations (tokenize content)) (hform : d.form = .function text) :
    ∃ σ : Signature, text = σ.text ∧ d.name = σ.name.text ∧ d.descriptor = σ.head := by
  obtain ⟨before, w, after, htokens, hintroduces⟩ := exists_introduces h
  have hfound := hintroduces.found
  obtain ⟨-, hword, -⟩ := namesOneOf_of_mem hfound
  rw [hform, introducers, List.mem_singleton] at hword
  have hafter : after ⊆ tokenize content := fun t ht =>
    htokens ▸ List.mem_append_right before (List.mem_cons_of_mem w ht)
  simp only [declarationsAt, hword] at hfound
  split at hfound
  · rw [functionDeclaration_eq] at hfound
    obtain ⟨name, rest, hstep, hname, rfl⟩ := exists_of_mem_namedFunction hfound
    have hsuffix := (WalksForward.id.stepOver (·.isOperator "*")).suffix after
    rw [hstep] at hsuffix
    have hin : name ∈ tokenize content := hafter (hsuffix.subset List.mem_cons_self)
    obtain ⟨hkind, hbuiltin⟩ := Bool.and_eq_true_iff.mp hname
    have hisWord : name.isWord = true := by rw [isWord, hkind, Bool.or_true]
    obtain ⟨hnameAt, htext⟩ := Layer.isWordText .outer hin hisWord
    have hidentifier : Lexeme.nameKind name.text.toList = .identifier := by
      rw [hnameAt, nameAt, hasKind_plain, decide_eq_true_eq] at hkind
      exact hkind
    have hrest : afterTypeParameters rest ⊆ tokenize content := fun t ht =>
      hafter (hsuffix.subset (List.mem_cons_of_mem name
        ((walksForward_afterTypeParameters.suffix rest).subset ht)))
    obtain ⟨list, hlist⟩ := exists_parameterTail ((hasWordTexts_tokenize content).mono hrest)
    refine ⟨⟨_, _, ⟨name.text, htext⟩, list, hidentifier, Bool.not_eq_true' _ ▸ hbuiltin⟩,
      ?_, rfl, rfl⟩
    rw [← Declaration.Form.function.inj hform, signatureTail_eq, hlist]
    rfl
  · cases hfound

end SymbolAtlas.Script
