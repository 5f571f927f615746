import SymbolAtlas.Token.Scan
import SymbolAtlas.Proofs.Text.Cursor

/-! # Readings of a source

The scanner counts its steps. A reading does not: `Scan.Code` and `Scan.Template` relate a cursor
to the tokens that are read from it and to the cursor at which they end, with one constructor for
each thing that can stand at the head of the text. The scanner computes the one reading there is,
whenever it is given more steps than there are characters left.
-/

namespace SymbolAtlas

namespace Scan

/-! ## The end of the text -/

variable {steps : Nat} {c : Cursor}

theorem code_done {nesting : Nesting} {previous : Option Token} (hc : c.rest = []) :
    code (steps + 1) nesting previous c = ([], c) := by
  simp only [code, hc]

theorem template_unclosed (hc : c.rest = []) : template (steps + 1) c = ([], c) := by
  simp only [template, hc]

end Scan

/-! ## Lexemes go forward -/

namespace Lexeme

open Identifier

def length : Lexeme → Nat
  | gap n => n
  | token _ n => n
  | backquote => 1

theorem markLength_pos {cs : List Char} {n : Nat} (h : markLength? cs = some n) : 0 < n := by
  unfold markLength? at h
  split at h
  · injection h with h
    omega
  · split at h
    · exact absurd h (by simp)
    · injection h with h
      omega
  · split at h
    · injection h with h
      omega
    · exact absurd h (by simp)
  · exact absurd h (by simp)

/-- Where no mark begins, the first character is no bracket or separator. -/
theorem marks_of_markLength_eq_none {c : Char} {cs : List Char}
    (h : markLength? (c :: cs) = none) : marks.contains c = false := by
  rw [Bool.eq_false_iff]
  intro hc
  unfold markLength? at h
  split at h
  · cases h
  · next heq =>
    injection heq with hquestion
    subst hquestion
    revert hc
    decide
  · next heq =>
    injection heq with heq
    rw [← heq, if_pos hc] at h
    cases h
  · next heq => cases heq

theorem operators_ne_empty : ∀ op ∈ operators, 0 < op.length := by decide

theorem operatorLength_pos {cs : List Char} {n : Nat} (h : operatorLength? cs = some n) :
    0 < n := by
  obtain ⟨op, hop, rfl⟩ := Option.map_eq_some_iff.mp h
  exact operators_ne_empty op (List.mem_of_find?_eq_some hop)

theorem throughQuote_cons {quote c : Char} (hc : c ≠ '\\') (cs : List Char) :
    throughQuote quote (c :: cs) = if c = quote then 1 else 1 + throughQuote quote cs := by
  rw [throughQuote]
  · exact fun h => absurd h hc
  · exact fun _ _ h => absurd h hc

theorem throughCommentEnd_cons {c : Char} {cs : List Char}
    (h : c = '*' → cs.head? ≠ some '/') :
    throughCommentEnd (c :: cs) = 1 + throughCommentEnd cs := by
  rw [throughCommentEnd]
  rintro rest rfl rfl
  exact h rfl rfl

/-- A block comment ends with the first mark that closes it, or with the text. -/
theorem throughCommentEnd_cases (cs : List Char) :
    (∃ text rest, cs = text ++ '*' :: '/' :: rest ∧ throughCommentEnd cs = text.length + 2 ∧
        ¬ ['*', '/'] <:+: text ++ ['*']) ∨
      throughCommentEnd cs = cs.length ∧ ¬ ['*', '/'] <:+: cs := by
  fun_induction throughCommentEnd cs with
  | case1 => exact .inr ⟨rfl, by simp⟩
  | case2 rest => exact .inl ⟨[], rest, rfl, rfl, by decide⟩
  | case3 c cs hne ih =>
    have hcons {ds : List Char} (hds : ¬ ['*', '/'] <:+: ds)
        (hhead : c = '*' → ds.head? ≠ some '/') : ¬ ['*', '/'] <:+: c :: ds := by
      rw [List.infix_cons_iff]
      rintro (hhere | hlater)
      · obtain ⟨after, h⟩ := hhere
        injection h with hstar h
        exact hhead hstar.symm (by rw [← h]; rfl)
      · exact hds hlater
    rcases ih with ⟨text, rest, rfl, hlength, htext⟩ | ⟨hlength, htext⟩
    · refine .inl ⟨c :: text, rest, rfl, ?_, hcons htext ?_⟩
      · rw [hlength, List.length_cons]
        omega
      · rintro rfl h
        cases text with
        | nil => cases h
        | cons d text =>
          cases h
          exact hne _ rfl rfl
    · refine .inr ⟨by rw [hlength, List.length_cons]; omega, hcons htext ?_⟩
      rintro rfl h
      obtain ⟨rest, rfl⟩ := List.head?_eq_some_iff.mp h
      exact hne _ rfl rfl

theorem length_afterSlash_pos (regexMayStart : Bool) (cs : List Char) :
    0 < (afterSlash regexMayStart cs).length := by
  unfold afterSlash
  split
  · exact Nat.lt_of_lt_of_le Nat.one_pos (Nat.le_add_right 1 _)
  · exact Nat.lt_of_lt_of_le Nat.two_pos (Nat.le_add_right 2 _)
  · split
    · exact Nat.lt_of_lt_of_le Nat.one_pos (Nat.le_add_right 1 _)
    · simp only [length]
      split <;> decide

theorem afterSlash_ne_backquote (regexMayStart : Bool) (cs : List Char) :
    afterSlash regexMayStart cs ≠ backquote := by
  unfold afterSlash
  split
  · exact Lexeme.noConfusion
  · exact Lexeme.noConfusion
  · split <;> exact Lexeme.noConfusion

/-- What can stand at the head of the text `c :: cs`, with what is known where it does. -/
inductive IsHead (regexMayStart : Bool) (c : Char) (cs : List Char) : Lexeme → Prop
  | gap (hc : isGap c = true) : IsHead regexMayStart c cs (.gap 1)
  | slash {l : Lexeme} (hc : c = '/') (h : afterSlash regexMayStart cs = l) :
      IsHead regexMayStart c cs l
  | quoted (hc : c = '"' ∨ c = '\'') :
      IsHead regexMayStart c cs (.token .string (1 + throughQuote c cs))
  | backquote (hc : c = '\x60') : IsHead regexMayStart c cs .backquote
  | name (hc : (isNameStart c || (c == '#' && cs.head?.any isNameStart)) = true) :
      IsHead regexMayStart c cs (.token (nameKind (c :: cs.takeWhile isNamePart))
        (1 + (cs.takeWhile isNamePart).length))
  | number (hc : (isAsciiDigit c || (c == '.' && cs.head?.any isAsciiDigit)) = true) :
      IsHead regexMayStart c cs
        (.token .numeric (1 + numberTail (hasBasePrefix (c :: cs)) c cs))
  | mark {n : Nat}
      (hnumber : ¬ (isAsciiDigit c || (c == '.' && cs.head?.any isAsciiDigit)) = true)
      (h : markLength? (c :: cs) = some n) : IsHead regexMayStart c cs (.token .punctuation n)
  | operator {n : Nat} (hmark : markLength? (c :: cs) = none)
      (h : operatorLength? (c :: cs) = some n) : IsHead regexMayStart c cs (.token .operator n)
  | stray (hslash : c ≠ '/') (hquote : ¬ (c = '"' ∨ c = '\'')) (hback : c ≠ '\x60')
      (hname : ¬ (isNameStart c || (c == '#' && cs.head?.any isNameStart)) = true)
      (hnumber : ¬ (isAsciiDigit c || (c == '.' && cs.head?.any isAsciiDigit)) = true)
      (hmark : markLength? (c :: cs) = none) (hoperator : operatorLength? (c :: cs) = none) :
      IsHead regexMayStart c cs (.gap 1)

variable {regexMayStart : Bool} {c : Char} {cs : List Char}

theorem isHead_head (regexMayStart : Bool) (c : Char) (cs : List Char) :
    IsHead regexMayStart c cs (head regexMayStart c cs) := by
  unfold head
  split
  · next hc => exact .gap hc
  split
  · next hslash => exact .slash hslash rfl
  next hslash =>
  split
  · next hquote => exact .quoted (by simpa using hquote)
  next hquote =>
  split
  · next hback => exact .backquote hback
  next hback =>
  split
  · next hname => exact .name hname
  next hname =>
  split
  · next hnumber => exact .number hnumber
  next hnumber =>
  split
  · next hmark => exact .mark hnumber hmark
  next hmark =>
  split
  · next hoperator => exact .operator hmark hoperator
  · next hoperator =>
    exact .stray hslash (by simpa using hquote) hback hname hnumber hmark hoperator

theorem IsHead.of_head {l : Lexeme} (h : head regexMayStart c cs = l) :
    IsHead regexMayStart c cs l := h ▸ isHead_head regexMayStart c cs

theorem IsHead.length_pos {l : Lexeme} (h : IsHead regexMayStart c cs l) : 0 < l.length := by
  cases h with
  | slash _ h => exact h ▸ length_afterSlash_pos regexMayStart cs
  | mark _ h => exact markLength_pos h
  | operator _ h => exact operatorLength_pos h
  | gap | backquote | stray => exact Nat.one_pos
  | quoted | name | number => exact Nat.lt_of_lt_of_le Nat.one_pos (Nat.le_add_right 1 _)

/-- Every lexeme takes at least one character. -/
theorem length_head_pos (regexMayStart : Bool) (c : Char) (cs : List Char) :
    0 < (head regexMayStart c cs).length := (isHead_head regexMayStart c cs).length_pos

/-- Only a backquote opens a template literal. -/
theorem eq_of_head_eq_backquote (h : head regexMayStart c cs = backquote) : c = '\x60' := by
  cases IsHead.of_head h with
  | slash _ h => exact absurd h (afterSlash_ne_backquote regexMayStart cs)
  | backquote hc => exact hc

end Lexeme

namespace Scan

/-- What stands at the head of `ch :: cs` after the token `previous`. -/
def headAfter (previous : Option Token) (ch : Char) (cs : List Char) : Lexeme :=
  Lexeme.head (previous.all Token.mayPrecedeRegex) ch cs

def literalBetween (start stop : Cursor) (groups : List (List Token)) : Token :=
  .template start.position (String.ofList (start.slice stop)) groups.flatten

mutual

/-- Reading code from `c`, after the token `previous`, gives the tokens `ts` and ends at `stop`. -/
inductive Code : Nesting → Option Token → Cursor → List Token → Cursor → Prop
  | done {nesting : Nesting} {previous : Option Token} {c : Cursor} (hc : c.rest = []) :
      Code nesting previous c [] c
  | gap {nesting : Nesting} {previous : Option Token} {c stop : Cursor} {ch : Char}
      {cs : List Char} {n : Nat} {ts : List Token} (hc : c.rest = ch :: cs)
      (hhead : headAfter previous ch cs = .gap n)
      (next : Code nesting previous (c.advance n) ts stop) : Code nesting previous c ts stop
  | closing {nesting : Nesting} {previous : Option Token} {c : Cursor} {ch : Char}
      {cs : List Char} {kind : Token.Kind} {n : Nat} (hc : c.rest = ch :: cs)
      (hhead : headAfter previous ch cs = .token kind n) (hnest : nesting.after ch = none) :
      Code nesting previous c [] (c.advance n)
  | token {nesting inner : Nesting} {previous : Option Token} {c stop : Cursor} {ch : Char}
      {cs : List Char} {kind : Token.Kind} {n : Nat} {ts : List Token} (hc : c.rest = ch :: cs)
      (hhead : headAfter previous ch cs = .token kind n) (hnest : nesting.after ch = some inner)
      (next : Code inner (some (tokenBetween kind c (c.advance n))) (c.advance n) ts stop) :
      Code nesting previous c (tokenBetween kind c (c.advance n) :: ts) stop
  | literal {nesting : Nesting} {previous : Option Token} {c last stop : Cursor} {ch : Char}
      {cs : List Char} {groups : List (List Token)} {isClosed : Bool} {ts : List Token}
      (hc : c.rest = ch :: cs) (hhead : headAfter previous ch cs = .backquote)
      (body : Template (c.advance 1) groups last isClosed)
      (next : Code nesting (some (literalBetween c last groups)) last ts stop) :
      Code nesting previous c (literalBetween c last groups :: ts) stop

/-- Reading a template literal from `c`, inside its quotes, gives the tokens `groups` of its
interpolations and ends at `stop`. The literal is closed there, or the text ends first. -/
inductive Template : Cursor → List (List Token) → Cursor → Bool → Prop
  | unclosed {c : Cursor} (hc : c.rest = []) : Template c [] c false
  | escape {c stop : Cursor} {cs : List Char} {groups : List (List Token)} {isClosed : Bool}
      (hc : c.rest = '\\' :: cs) (next : Template (c.advance 2) groups stop isClosed) :
      Template c groups stop isClosed
  | closed {c : Cursor} {cs : List Char} (hc : c.rest = '\x60' :: cs) :
      Template c [] (c.advance 1) true
  | interpolation {c stop last : Cursor} {cs : List Char} {group : List Token}
      {groups : List (List Token)} {isClosed : Bool} (hc : c.rest = '$' :: '\x7b' :: cs)
      (code : Code (.inside 0) none (c.advance 2) group stop)
      (next : Template stop groups last isClosed) : Template c (group :: groups) last isClosed
  | text {c stop : Cursor} {ch : Char} {cs : List Char} {groups : List (List Token)}
      {isClosed : Bool} (hc : c.rest = ch :: cs) (hescape : ch ≠ '\\') (hquote : ch ≠ '\x60')
      (hopen : ch = '$' → cs.head? ≠ some '\x7b')
      (next : Template (c.advance 1) groups stop isClosed) : Template c groups stop isClosed

end

theorem length_pos_of_headAfter {previous : Option Token} {ch : Char} {cs : List Char}
    {lexeme : Lexeme} (h : headAfter previous ch cs = lexeme) : 0 < lexeme.length :=
  h ▸ Lexeme.length_head_pos _ ch cs

/-! ## Readings go forward -/

mutual

theorem Code.reaches {nesting : Nesting} {previous : Option Token} {c stop : Cursor}
    {ts : List Token} : Code nesting previous c ts stop → c.Reaches stop
  | .done _ => .refl c
  | .gap _ _ next => .of_advance next.reaches
  | .closing _ _ _ => .advance c _
  | .token _ _ _ next => .of_advance next.reaches
  | .literal _ _ body next => .of_advance (body.reaches.trans next.reaches)

theorem Template.reaches {c stop : Cursor} {groups : List (List Token)} {isClosed : Bool} :
    Template c groups stop isClosed → c.Reaches stop
  | .unclosed _ => .refl c
  | .escape _ next => .of_advance next.reaches
  | .closed _ => .advance c 1
  | .interpolation _ code next => .of_advance (code.reaches.trans next.reaches)
  | .text _ _ _ _ next => .of_advance next.reaches

end

/-- A template literal ends with a backquote, or with the source. -/
theorem Template.ends {c stop : Cursor} {groups : List (List Token)} {isClosed : Bool} :
    Template c groups stop isClosed →
      stop.rest = [] ∨ ∃ text, c.rest = text ++ '\x60' :: stop.rest
  | .unclosed hc => .inl hc
  | .escape _ next => next.ends.imp_right (Cursor.Reaches.advance _ 2).exists_rest
  | .closed hc => .inr ⟨[], by rw [Cursor.advance_rest, hc]; rfl⟩
  | .interpolation _ code next =>
    next.ends.imp_right (Cursor.Reaches.of_advance code.reaches).exists_rest
  | .text _ _ _ _ next => next.ends.imp_right (Cursor.Reaches.advance _ 1).exists_rest

/-- A token that is read is a lexeme, or a template literal with its body. -/
theorem Code.exists_of_mem {nesting : Nesting} {previous : Option Token} {c stop : Cursor}
    {ts : List Token} {t : Token} : Code nesting previous c ts stop → t ∈ ts →
      (∃ previous c ch cs kind n, c.rest = ch :: cs ∧ headAfter previous ch cs = .token kind n ∧
        t = tokenBetween kind c (c.advance n)) ∨
      ∃ c last groups isClosed, c.rest.head? = some '\x60' ∧
        Template (c.advance 1) groups last isClosed ∧ t = literalBetween c last groups
  | .done _, ht => absurd ht List.not_mem_nil
  | .gap _ _ next, ht => next.exists_of_mem ht
  | .closing _ _ _, ht => absurd ht List.not_mem_nil
  | .token hc hhead _ next, ht => by
    rcases List.mem_cons.mp ht with rfl | ht
    · exact .inl ⟨_, _, _, _, _, _, hc, hhead, rfl⟩
    · exact next.exists_of_mem ht
  | .literal hc hhead body next, ht => by
    rcases List.mem_cons.mp ht with rfl | ht
    · exact .inr ⟨_, _, _, _, by rw [hc, Lexeme.eq_of_head_eq_backquote hhead]; rfl, body, rfl⟩
    · exact next.exists_of_mem ht

/-! ## The scanner computes the reading -/

section Equations

variable {steps n : Nat} {nesting inner : Nesting} {previous : Option Token} {c : Cursor}
  {ch : Char} {cs : List Char} {kind : Token.Kind}

theorem code_gap (hc : c.rest = ch :: cs) (hhead : headAfter previous ch cs = .gap n) :
    code (steps + 1) nesting previous c = code steps nesting previous (c.advance n) := by
  rw [headAfter] at hhead
  simp only [code, hc, hhead]

theorem code_closing (hc : c.rest = ch :: cs) (hhead : headAfter previous ch cs = .token kind n)
    (hnest : nesting.after ch = none) :
    code (steps + 1) nesting previous c = ([], c.advance n) := by
  rw [headAfter] at hhead
  simp only [code, hc, hhead, hnest]

theorem code_token (hc : c.rest = ch :: cs) (hhead : headAfter previous ch cs = .token kind n)
    (hnest : nesting.after ch = some inner) :
    code (steps + 1) nesting previous c =
      let t := tokenBetween kind c (c.advance n)
      let (ts, stop) := code steps inner (some t) (c.advance n)
      (t :: ts, stop) := by
  rw [headAfter] at hhead
  simp only [code, hc, hhead, hnest]

theorem code_literal (hc : c.rest = ch :: cs) (hhead : headAfter previous ch cs = .backquote) :
    code (steps + 1) nesting previous c =
      let (groups, last) := template steps (c.advance 1)
      let t := literalBetween c last groups
      let (ts, stop) := code steps nesting (some t) last
      (t :: ts, stop) := by
  rw [headAfter] at hhead
  simp only [code, hc, hhead, literalBetween]

theorem template_escape (hc : c.rest = '\\' :: cs) :
    template (steps + 1) c = template steps (c.advance 2) := by
  simp only [template, hc]

theorem template_closed (hc : c.rest = '\x60' :: cs) :
    template (steps + 1) c = ([], c.advance 1) := by
  simp only [template, hc]

theorem template_interpolation (hc : c.rest = '$' :: '\x7b' :: cs) :
    template (steps + 1) c =
      let (group, stop) := code steps (.inside 0) none (c.advance 2)
      let (groups, last) := template steps stop
      (group :: groups, last) := by
  simp only [template, hc]

theorem template_text (hc : c.rest = ch :: cs) (hescape : ch ≠ '\\') (hquote : ch ≠ '\x60')
    (hopen : ch = '$' → cs.head? ≠ some '\x7b') :
    template (steps + 1) c = template steps (c.advance 1) := by
  rw [template, hc]
  split
  · simp_all
  · simp_all
  · simp_all
  · simp_all
  · rfl

end Equations

/-- Where fewer characters are left than that many steps, what the scanner answers over code is a
reading. -/
def CodeReads (steps : Nat) : Prop := ∀ nesting previous c, c.rest.length < steps →
  Code nesting previous c (code steps nesting previous c).1 (code steps nesting previous c).2

/-- Where fewer characters are left than that many steps, what the scanner answers over a template
is a reading. -/
def TemplateReads (steps : Nat) : Prop := ∀ c, c.rest.length < steps →
  ∃ isClosed, Template c (template steps c).1 (template steps c).2 isClosed

section Steps

variable {steps : Nat} (hcode : CodeReads steps) (htemplate : TemplateReads steps)

include hcode htemplate

theorem CodeReads.succ : CodeReads (steps + 1) := by
  intro nesting previous c hlen
  cases hc : c.rest with
  | nil =>
    rw [code_done hc]
    exact .done hc
  | cons ch cs =>
    have further {n : Nat} (hn : 0 < n) : (c.advance n).rest.length < steps := by
      have := Cursor.advance_rest_length_lt hn hc
      omega
    cases hhead : headAfter previous ch cs with
    | gap n =>
      rw [code_gap hc hhead]
      exact .gap hc hhead (hcode _ _ _ (further (length_pos_of_headAfter hhead)))
    | token kind n =>
      have hn := further (length_pos_of_headAfter hhead)
      cases hnest : nesting.after ch with
      | none =>
        rw [code_closing hc hhead hnest]
        exact .closing hc hhead hnest
      | some inner =>
        rw [code_token hc hhead hnest]
        exact .token hc hhead hnest (hcode _ _ _ hn)
    | backquote =>
      obtain ⟨_, body⟩ := htemplate (c.advance 1) (further Nat.one_pos)
      have hlast := Nat.lt_of_le_of_lt body.reaches.rest_length_le (further Nat.one_pos)
      rw [code_literal hc hhead]
      exact .literal hc hhead body (hcode _ _ _ hlast)

theorem TemplateReads.succ : TemplateReads (steps + 1) := by
  intro c hlen
  cases hc : c.rest with
  | nil =>
    rw [template_unclosed hc]
    exact ⟨false, .unclosed hc⟩
  | cons ch cs =>
    have further {n : Nat} (hn : 0 < n) : (c.advance n).rest.length < steps := by
      have := Cursor.advance_rest_length_lt hn hc
      omega
    -- in the order in which the scanner asks
    by_cases hescape : ch = '\\'
    · subst hescape
      obtain ⟨isClosed, next⟩ := htemplate (c.advance 2) (further Nat.two_pos)
      rw [template_escape hc]
      exact ⟨isClosed, .escape hc next⟩
    by_cases hquote : ch = '\x60'
    · subst hquote
      rw [template_closed hc]
      exact ⟨true, .closed hc⟩
    by_cases hopen : ch = '$' ∧ cs.head? = some '\x7b'
    · obtain ⟨rfl, hhead⟩ := hopen
      obtain ⟨rest, rfl⟩ := List.head?_eq_some_iff.mp hhead
      have group := hcode (.inside 0) none (c.advance 2) (further Nat.two_pos)
      have hstop := Nat.lt_of_le_of_lt group.reaches.rest_length_le (further Nat.two_pos)
      obtain ⟨isClosed, next⟩ := htemplate _ hstop
      rw [template_interpolation hc]
      exact ⟨isClosed, .interpolation hc group next⟩
    · have hopen' (h : ch = '$') : cs.head? ≠ some '\x7b' := fun h' => hopen ⟨h, h'⟩
      obtain ⟨isClosed, next⟩ := htemplate (c.advance 1) (further Nat.one_pos)
      rw [template_text hc hescape hquote hopen']
      exact ⟨isClosed, .text hc hescape hquote hopen' next⟩

end Steps

/-- With more steps than characters left, what the scanner answers is a reading. -/
theorem code_reads (steps : Nat) : CodeReads steps ∧ TemplateReads steps := by
  induction steps with
  | zero =>
    exact ⟨fun _ _ _ h => absurd h (Nat.not_lt_zero _), fun _ h => absurd h (Nat.not_lt_zero _)⟩
  | succ steps ih => exact ⟨ih.1.succ ih.2, ih.2.succ ih.1⟩

mutual

/-- A reading is what the scanner answers, given more steps than characters left. -/
theorem Code.eq_code {steps : Nat} {nesting : Nesting} {previous : Option Token}
    {c stop : Cursor} {ts : List Token} (reading : Code nesting previous c ts stop)
    (hlen : c.rest.length < steps) : code steps nesting previous c = (ts, stop) := by
  obtain ⟨steps, rfl⟩ := Nat.exists_eq_add_of_lt (Nat.zero_lt_of_lt hlen)
  rw [Nat.zero_add] at *
  match reading with
  | .done hc => exact code_done hc
  | .gap hc hhead next =>
    have := Cursor.advance_rest_length_lt (length_pos_of_headAfter hhead) hc
    rw [code_gap hc hhead, next.eq_code (by simp only [Lexeme.length] at this; omega)]
  | .closing hc hhead hnest => exact code_closing hc hhead hnest
  | .token hc hhead hnest next =>
    have := Cursor.advance_rest_length_lt (length_pos_of_headAfter hhead) hc
    have hnext : code steps _ _ _ = _ :=
      next.eq_code (by simp only [Lexeme.length] at this; omega)
    simp only [code_token hc hhead hnest, hnext]
  | .literal hc hhead body next =>
    have := Cursor.advance_rest_length_lt Nat.one_pos hc
    have := body.reaches.rest_length_le
    have := next.reaches.rest_length_le
    have hbody : template steps _ = _ := body.eq_template (by omega)
    have hnext : code steps _ _ _ = _ := next.eq_code (by omega)
    simp only [code_literal hc hhead, hbody, hnext]

theorem Template.eq_template {steps : Nat} {c stop : Cursor} {groups : List (List Token)}
    {isClosed : Bool} (reading : Template c groups stop isClosed) (hlen : c.rest.length < steps) :
    template steps c = (groups, stop) := by
  obtain ⟨steps, rfl⟩ := Nat.exists_eq_add_of_lt (Nat.zero_lt_of_lt hlen)
  rw [Nat.zero_add] at *
  match reading with
  | .unclosed hc => exact template_unclosed hc
  | .escape hc next =>
    have := Cursor.advance_rest_length_lt Nat.two_pos hc
    rw [template_escape hc, next.eq_template (by omega)]
  | .closed hc => exact template_closed hc
  | .interpolation hc group next =>
    have := Cursor.advance_rest_length_lt Nat.two_pos hc
    have := group.reaches.rest_length_le
    have hgroup : code steps _ _ _ = _ := group.eq_code (by omega)
    have hnext : template steps _ = _ := next.eq_template (by omega)
    simp only [template_interpolation hc, hgroup, hnext]
  | .text hc hescape hquote hopen next =>
    have := Cursor.advance_rest_length_lt Nat.one_pos hc
    rw [template_text hc hescape hquote hopen, next.eq_template (by omega)]

end

theorem codeStart_of_not_interpreter {source : List Char} (h : ¬ ['#', '!'] <+: source) :
    codeStart source = .ofList source := by
  rw [codeStart, if_neg (mt List.isPrefixOf_iff_prefix.mp h)]

theorem codeStart_of_interpreter {source : List Char} (h : ['#', '!'] <+: source) :
    codeStart source = (Cursor.ofList source).advance (Lexeme.lineLength source) := by
  rw [codeStart, if_pos (List.isPrefixOf_iff_prefix.mpr h)]

theorem codeStart_isIn (source : List Char) : (codeStart source).IsIn source := by
  unfold codeStart
  split
  · exact (Cursor.ofList_isIn source).advance _
  · exact Cursor.ofList_isIn source

end Scan

/-- The tokens of a source are those of the reading of its code. -/
theorem tokenize_reads (source : String) :
    ∃ stop, Scan.Code .outside none (Scan.codeStart source.toList) (tokenize source) stop :=
  ⟨_, (Scan.code_reads _).1 _ _ _ (Nat.lt_succ_self _)⟩

/-- Whatever is read from the code of a source is its token list. -/
theorem Scan.Code.tokenize_eq {source : String} {ts : List Token} {stop : Cursor}
    (reading : Code .outside none (codeStart source.toList) ts stop) : tokenize source = ts := by
  rw [tokenize, reading.eq_code (Nat.lt_succ_self _)]

end SymbolAtlas
