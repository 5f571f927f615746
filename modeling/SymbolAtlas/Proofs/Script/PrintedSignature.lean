import SymbolAtlas.Proofs.Token.WordText

/-! # Signatures as they are printed

A signature shows the words before a function's name, the name, and, if it could be read, the
parameter list with the return type. What it shows are words that the scanner reads back, so the
text of a signature, with an empty body after it, is scanned into the tokens that are written.
-/

namespace SymbolAtlas.Script

open Written

structure ShownWord where
  text : String
  isWordText : IsWordText text

inductive ShownTarget where
  | name (word : ShownWord) (isOptional : Bool) (type : Option ShownWord)
  | braces
  | brackets

structure ShownParameter where
  isRest : Bool
  target : ShownTarget

structure ShownList where
  parameters : List ShownParameter
  result : Option ShownWord

/-- A signature. The name of the function is one that a declaration may bind. -/
structure Signature where
  isAsync : Bool
  isGenerator : Bool
  name : ShownWord
  list : Option ShownList
  isIdentifier : Lexeme.nameKind name.text.toList = .identifier
  notBuiltin : Vocabulary.isBuiltin name.text = false

/-! ## The text -/

def annotationText : Option ShownWord → String
  | none => ""
  | some type => ": " ++ type.text

def ShownTarget.text : ShownTarget → String
  | name word isOptional type =>
    word.text ++ (if isOptional then "?" else "") ++ annotationText type
  | braces => "\x7b\x7d"
  | brackets => "[]"

def ShownParameter.text (p : ShownParameter) : String :=
  (if p.isRest then "..." else "") ++ p.target.text

def ShownList.text (l : ShownList) : String :=
  "(" ++ ", ".intercalate (l.parameters.map ShownParameter.text) ++ ")" ++ annotationText l.result

namespace Signature

def head (σ : Signature) : String :=
  (if σ.isAsync then "async " else "") ++ "function" ++ if σ.isGenerator then "*" else ""

def text (σ : Signature) : String :=
  σ.head ++ " " ++ σ.name.text ++ (σ.list.map ShownList.text).getD ""

end Signature

/-! ## The tokens -/

def question : Written := ⟨.operator, "?", []⟩

def writtenType (blanks : List Char) : Option ShownWord → List Written
  | none => []
  | some type => [mark ":" [' '], word type.text blanks]

def ShownTarget.written : ShownTarget → List Written
  | name shown isOptional type =>
    word shown.text [] :: ((if isOptional then [question] else []) ++ writtenType [] type)
  | braces => [mark "\x7b" [], mark "\x7d" []]
  | brackets => [mark "[" [], mark "]" []]

def ShownParameter.written (p : ShownParameter) : List Written :=
  (if p.isRest then [mark "..." []] else []) ++ p.target.written

def writtenParameters : List ShownParameter → List Written
  | [] => []
  | [p] => p.written
  | p :: next :: ps => p.written ++ mark "," [' '] :: writtenParameters (next :: ps)

/-- A list with the bracket that closes it, and the return type, from after its opening bracket. -/
def ShownList.written (l : ShownList) : List Written :=
  writtenParameters l.parameters ++
    mark ")" (if l.result.isNone then [' '] else []) :: writtenType [' '] l.result

def emptyBody : List Written := [mark "\x7b" [], mark "\x7d" []]

namespace Signature

def writtenAfterName (σ : Signature) : List Written :=
  match σ.list with
  | none => emptyBody
  | some l => mark "(" [] :: (l.written ++ emptyBody)

def writtenTail (σ : Signature) : List Written :=
  word σ.name.text (if σ.list.isNone then [' '] else []) :: σ.writtenAfterName

def writtenStar (σ : Signature) : List Written := if σ.isGenerator then [star] else []

def writtenHead (σ : Signature) : List Written :=
  (if σ.isAsync then [word "async" [' ']] else []) ++
    word "function" (if σ.isGenerator then [] else [' ']) :: σ.writtenStar

def written (σ : Signature) : List Written := σ.writtenHead ++ σ.writtenTail

end Signature

/-! ## The text of the tokens -/

theorem textOf_writtenType (blanks : List Char) (type : Option ShownWord) :
    textOf (writtenType blanks type) =
      (annotationText type).toList ++ if type.isNone then [] else blanks := by
  cases type <;> simp [writtenType, annotationText, mark, word]

theorem ShownTarget.textOf_written (target : ShownTarget) :
    textOf target.written = target.text.toList := by
  cases target with
  | name shown isOptional type =>
    have hmark : textOf (if isOptional then [question] else []) =
        (if isOptional then "?" else "").toList := by
      cases isOptional <;> rfl
    simp only [written, text, textOf_cons, textOf_append, hmark, textOf_writtenType,
      String.toList_append, ite_self]
    simp [word]
  | braces => rfl
  | brackets => rfl

theorem ShownParameter.textOf_written (p : ShownParameter) :
    textOf p.written = p.text.toList := by
  have hdots : textOf (if p.isRest then [mark "..." []] else []) =
      (if p.isRest then "..." else "").toList := by
    cases p.isRest <;> rfl
  rw [written, text, textOf_append, hdots, p.target.textOf_written, String.toList_append]

theorem textOf_writtenParameters (ps : List ShownParameter) :
    textOf (writtenParameters ps) = (", ".intercalate (ps.map ShownParameter.text)).toList := by
  fun_induction writtenParameters ps with
  | case1 => rfl
  | case2 p => rw [p.textOf_written, List.map_singleton, String.intercalate_singleton]
  | case3 p next ps ih =>
    rw [textOf_append, p.textOf_written, textOf_cons, ih]
    simp only [List.map_cons, String.intercalate_cons_cons]
    simp [mark]

theorem ShownList.textOf_written (l : ShownList) :
    '(' :: textOf l.written = l.text.toList ++ [' '] := by
  rw [written, text, textOf_append, textOf_writtenParameters, textOf_cons,
    textOf_writtenType]
  cases l.result <;> simp [mark, annotationText]

namespace Signature

theorem textOf_writtenHead (σ : Signature) : textOf σ.writtenHead = (σ.head ++ " ").toList := by
  rw [writtenHead, writtenStar, head]
  cases σ.isAsync <;> cases σ.isGenerator <;> rfl

theorem textOf_writtenTail (σ : Signature) : textOf σ.writtenTail =
    σ.name.text.toList ++ ((σ.list.map ShownList.text).getD "" ++ " \x7b\x7d").toList := by
  have hbody : textOf emptyBody = "\x7b\x7d".toList := rfl
  cases hlist : σ.list with
  | none => simp [writtenTail, writtenAfterName, hlist, hbody, word]
  | some l =>
    have hopen := l.textOf_written
    simp only [writtenTail, writtenAfterName, hlist, textOf_cons, textOf_append, hbody]
    simp [word, mark, ← List.cons_append, hopen]

theorem textOf_written (σ : Signature) :
    textOf σ.written = (σ.text ++ " \x7b\x7d").toList := by
  rw [written, textOf_append, σ.textOf_writtenHead, σ.textOf_writtenTail, text]
  simp

end Signature

/-! ## Signatures are legible -/

/-- The text begins with a mark that is a token of its own. -/
def StartsMarked (rest : List Char) : Prop := ∃ c ∈ loneMarks, ∃ cs, rest = c :: cs

theorem startsMarked_mark {s : String} {blanks : List Char} {ws : List Written}
    (hs : isLoneMark s = true) : StartsMarked (textOf (mark s blanks :: ws)) := by
  obtain ⟨c, hc, htext⟩ := isLoneMark_iff.mp hs
  refine ⟨c, hc, blanks ++ textOf ws, ?_⟩
  rw [textOf_cons, mark, htext, List.singleton_append]

theorem StartsMarked.stopsName {rest : List Char} (h : StartsMarked rest) :
    stopsName rest = true := by
  obtain ⟨c, hc, cs, rfl⟩ := h
  simp only [loneMarks, List.mem_cons, List.not_mem_nil, or_false] at hc
  rcases hc with rfl | rfl | rfl | rfl | rfl | rfl | rfl | rfl | rfl <;> rfl

theorem StartsMarked.legible_question {rest : List Char} (h : StartsMarked rest) :
    question.Legible rest := by
  obtain ⟨c, hc, cs, rfl⟩ := h
  refine ⟨⟨'?', [], rfl, fun _ => ?_⟩, rfl⟩
  simp only [loneMarks, List.mem_cons, List.not_mem_nil, or_false] at hc
  rcases hc with rfl | rfl | rfl | rfl | rfl | rfl | rfl | rfl | rfl <;> rfl

theorem legible_dots (rest : List Char) : (mark "..." []).Legible rest :=
  ⟨⟨'.', ['.', '.'], rfl, fun _ => rfl⟩, rfl⟩

section Legible

variable {ws : List Written}

theorem allLegible_annotation {blanks : List Char} (type : Option ShownWord)
    (hblanks : blanks.all Lexeme.isGap = true) (hstop : stopsName (blanks ++ textOf ws) = true)
    (hws : AllLegible ws) : AllLegible (writtenType blanks type ++ ws) := by
  cases type with
  | none => exact hws
  | some type => exact allLegible_mark (by decide) rfl ⟨type.isWordText.legible hblanks hstop, hws⟩

theorem startsMarked_annotation {blanks : List Char} (type : Option ShownWord)
    (h : StartsMarked (textOf ws)) :
    StartsMarked (textOf (writtenType blanks type ++ ws)) := by
  cases type with
  | none => exact h
  | some type => exact startsMarked_mark (by decide)

theorem ShownTarget.allLegible (target : ShownTarget) (hws : AllLegible ws)
    (hnext : StartsMarked (textOf ws)) : AllLegible (target.written ++ ws) := by
  cases target with
  | name shown isOptional type =>
    have htype : AllLegible (writtenType [] type ++ ws) :=
      allLegible_annotation type rfl hnext.stopsName hws
    have hmarked : StartsMarked (textOf (writtenType [] type ++ ws)) :=
      startsMarked_annotation type hnext
    rw [written, List.cons_append, List.append_assoc]
    cases isOptional with
    | false => exact ⟨shown.isWordText.legible rfl hmarked.stopsName, htype⟩
    | true => exact ⟨shown.isWordText.legible rfl rfl, hmarked.legible_question, htype⟩
  | braces => exact allLegible_mark (by decide) rfl (allLegible_mark (by decide) rfl hws)
  | brackets => exact allLegible_mark (by decide) rfl (allLegible_mark (by decide) rfl hws)

theorem ShownParameter.allLegible (p : ShownParameter) (hws : AllLegible ws)
    (hnext : StartsMarked (textOf ws)) : AllLegible (p.written ++ ws) := by
  rw [written, List.append_assoc]
  cases p.isRest with
  | false => exact p.target.allLegible hws hnext
  | true => exact ⟨legible_dots _, p.target.allLegible hws hnext⟩

theorem allLegible_parameters (ps : List ShownParameter) (hws : AllLegible ws)
    (hnext : StartsMarked (textOf ws)) : AllLegible (writtenParameters ps ++ ws) := by
  fun_induction writtenParameters ps with
  | case1 => exact hws
  | case2 p => exact p.allLegible hws hnext
  | case3 p next ps ih =>
    rw [List.append_assoc]
    exact p.allLegible (allLegible_mark (by decide) rfl ih) (startsMarked_mark (by decide))

theorem ShownList.allLegible (l : ShownList) (hws : AllLegible ws) :
    AllLegible (l.written ++ ws) := by
  have htype : AllLegible (writtenType [' '] l.result ++ ws) :=
    allLegible_annotation l.result rfl rfl hws
  have hblanks : (if l.result.isNone then [' '] else []).all Lexeme.isGap = true := by
    split <;> rfl
  rw [written, List.append_assoc]
  exact allLegible_parameters l.parameters (allLegible_mark (by decide) hblanks htype)
    (startsMarked_mark (by decide))

end Legible

namespace Signature

theorem allLegible_writtenTail (σ : Signature) : AllLegible σ.writtenTail := by
  have hbody : AllLegible emptyBody :=
    allLegible_mark (by decide) rfl (allLegible_mark (by decide) rfl trivial)
  rw [writtenTail, writtenAfterName]
  cases σ.list with
  | none => exact ⟨σ.name.isWordText.legible rfl rfl, hbody⟩
  | some l =>
    exact ⟨σ.name.isWordText.legible rfl rfl, allLegible_mark (by decide) rfl
      (l.allLegible hbody)⟩

theorem allLegible_written (σ : Signature) : AllLegible σ.written := by
  have hword : isAsciiName "function" = true := by decide
  have hrest : AllLegible (word "function" (if σ.isGenerator then [] else [' ']) ::
      (σ.writtenStar ++ σ.writtenTail)) := by
    rw [writtenStar]
    cases σ.isGenerator with
    | false => exact ⟨legible_word hword rfl rfl, σ.allLegible_writtenTail⟩
    | true =>
      exact ⟨legible_word hword rfl rfl, legible_star _, σ.allLegible_writtenTail⟩
  rw [written, writtenHead, List.append_assoc]
  cases σ.isAsync with
  | false => exact hrest
  | true => exact ⟨legible_word (by decide) rfl rfl, hrest⟩

/-- A signature with an empty body is scanned into the tokens that are written. -/
theorem tokenize_printed (σ : Signature) :
    tokenize (σ.text ++ " \x7b\x7d") = tokensFrom .start σ.written := by
  have hstart : ['#', '!'].isPrefixOf (textOf σ.written) = false := by
    rw [written, writtenHead]
    cases σ.isAsync <;> cases σ.isGenerator <;> rfl
  have htokens := tokenize_written σ.allLegible_written hstart
  rwa [σ.textOf_written, String.ofList_toList] at htokens

end Signature

end SymbolAtlas.Script
