import SymbolAtlas.Proofs.Token.Surroundings
import SymbolAtlas.Proofs.Token.WordText
import Mathlib.Data.List.Pairwise

/-! # The longest match

A token goes on as far as its characters allow. A word ends before a character that cannot
continue a name, an operator is the longest one that begins where it does, and a dot, a question
mark or a slash is a token of its own only where no longer token begins with it.
-/

namespace SymbolAtlas

open Identifier

namespace Lexeme

/-! ## Operators -/

theorem operators_sorted : operators.Pairwise fun a b => b.length ≤ a.length := by decide

/-- The operator at the head of a text is the longest that begins there. -/
theorem exists_operator {cs : List Char} {n : Nat} (h : operatorLength? cs = some n) :
    ∃ op ∈ operators, op.toList = cs.take n ∧
      ∀ op' ∈ operators, op'.toList <+: cs → op'.length ≤ op.length := by
  obtain ⟨op, hop, rfl⟩ := Option.map_eq_some_iff.mp h
  obtain ⟨hbegins, longer, shorter, hops, hnot⟩ := List.find?_eq_some_iff_append.mp hop
  refine ⟨op, List.mem_of_find?_eq_some hop, ?_, fun op' hop' hprefix => ?_⟩
  · rw [← String.length_toList]
    exact List.prefix_iff_eq_take.mp (List.isPrefixOf_iff_prefix.mp hbegins)
  · have hsorted := operators_sorted
    rw [hops, List.pairwise_append, List.pairwise_cons] at hsorted
    rw [hops, List.mem_append, List.mem_cons] at hop'
    rcases hop' with hop' | rfl | hop'
    · have hother := hnot op' hop'
      rw [Bool.not_eq_true', Bool.eq_false_iff, Ne, List.isPrefixOf_iff_prefix] at hother
      exact absurd hprefix hother
    · exact Nat.le_refl _
    · exact hsorted.2.1.1 op' hop'

/-! ## What a token can be -/

/-- What makes the text `c :: cs` begin with a token of this category and length. -/
inductive Begins (regexMayStart : Bool) (c : Char) (cs : List Char) : Token.Kind → Nat → Prop
  | slash {kind : Token.Kind} {n : Nat} (hc : c = '/')
      (h : afterSlash regexMayStart cs = .token kind n) : Begins regexMayStart c cs kind n
  | quoted (hc : c = '"' ∨ c = '\'') :
      Begins regexMayStart c cs .string (1 + throughQuote c cs)
  | name (hc : (isNameStart c || (c == '#' && cs.head?.any isNameStart)) = true) :
      Begins regexMayStart c cs (nameKind (c :: cs.takeWhile isNamePart))
        (1 + (cs.takeWhile isNamePart).length)
  | number (hc : (isAsciiDigit c || (c == '.' && cs.head?.any isAsciiDigit)) = true) :
      Begins regexMayStart c cs .numeric (1 + numberTail (hasBasePrefix (c :: cs)) c cs)
  | mark {n : Nat} (hnumber : c = '.' → cs.head?.any isAsciiDigit = false)
      (h : markLength? (c :: cs) = some n) : Begins regexMayStart c cs .punctuation n
  | operator {n : Nat} (hmark : markLength? (c :: cs) = none)
      (h : operatorLength? (c :: cs) = some n) : Begins regexMayStart c cs .operator n

theorem begins_of_head {regexMayStart : Bool} {c : Char} {cs : List Char} {kind : Token.Kind}
    {n : Nat} (h : head regexMayStart c cs = .token kind n) :
    Begins regexMayStart c cs kind n := by
  cases IsHead.of_head h with
  | slash hc h => exact .slash hc h
  | quoted hc => exact .quoted hc
  | name hc => exact .name hc
  | number hc => exact .number hc
  | operator hmark h => exact .operator hmark h
  | mark hnumber h =>
    refine .mark (fun hdot => ?_) h
    subst hdot
    simp only [Bool.or_eq_true, not_or, Bool.and_eq_true, beq_self_eq_true, true_and,
      Bool.not_eq_true] at hnumber
    exact hnumber.2

theorem ne_nameKind {kind : Token.Kind} (h : kind ≠ .keyword ∧ kind ≠ .identifier)
    (name : List Char) : kind ≠ nameKind name := by
  unfold nameKind
  split
  · exact h.1
  · exact h.2

theorem afterSlash_cases {regexMayStart : Bool} {cs : List Char} {kind : Token.Kind} {n : Nat}
    (h : afterSlash regexMayStart cs = .token kind n) : kind = .regex ∨ kind = .operator := by
  unfold afterSlash at h
  split at h
  · cases h
  · cases h
  · split at h
    · cases h
      exact .inl rfl
    · cases h
      exact .inr rfl

theorem Begins.operator_cases {regexMayStart : Bool} {c : Char} {cs : List Char} {n : Nat}
    (h : Begins regexMayStart c cs .operator n) :
    (c = '/' ∧ afterSlash regexMayStart cs = .token .operator n) ∨
      markLength? (c :: cs) = none ∧ operatorLength? (c :: cs) = some n := by
  generalize hkind : Token.Kind.operator = kind at h
  cases h with
  | slash hc h => exact .inl ⟨hc, hkind ▸ h⟩
  | operator hmark h => exact .inr ⟨hmark, h⟩
  | name => exact absurd hkind (ne_nameKind (by decide) _)
  | quoted | number | mark => cases hkind

theorem Begins.mark_cases {regexMayStart : Bool} {c : Char} {cs : List Char} {n : Nat}
    (h : Begins regexMayStart c cs .punctuation n) :
    (c = '.' → cs.head?.any isAsciiDigit = false) ∧ markLength? (c :: cs) = some n := by
  generalize hkind : Token.Kind.punctuation = kind at h
  cases h with
  | slash _ h => rcases afterSlash_cases h with rfl | rfl <;> cases hkind
  | mark hnumber h => exact ⟨hnumber, h⟩
  | name => exact absurd hkind (ne_nameKind (by decide) _)
  | quoted | number | operator => cases hkind

/-- A slash that is no regular expression and opens no comment is as long as the equals sign after
it allows. -/
theorem afterSlash_operator {regexMayStart : Bool} {cs : List Char} {n : Nat}
    (h : afterSlash regexMayStart cs = .token .operator n) :
    cs.head? ≠ some '/' ∧ cs.head? ≠ some '*' ∧ n = if cs.head? = some '=' then 2 else 1 := by
  unfold afterSlash at h
  split at h
  · cases h
  · cases h
  next hline hblock =>
  refine ⟨fun hhead => ?_, fun hhead => ?_, ?_⟩
  · obtain ⟨rest, rfl⟩ := List.head?_eq_some_iff.mp hhead
    exact hline rest rfl
  · obtain ⟨rest, rfl⟩ := List.head?_eq_some_iff.mp hhead
    exact hblock rest rfl
  · split at h
    · cases h
    · cases h
      simp only [beq_iff_eq]

/-- A question mark that is no mark stands before a dot only if a digit comes next. -/
theorem markLength_question {cs : List Char} (h : markLength? ('?' :: cs) = none)
    (hdot : cs.head? = some '.') : cs.tail.head?.any isAsciiDigit = true := by
  obtain ⟨rest, rfl⟩ := List.head?_eq_some_iff.mp hdot
  rw [markLength?] at h
  split at h
  · assumption
  · cases h

end Lexeme

namespace Token

/-- No longer token begins where the token does, given the text `right` after it: a word ends
before a character that cannot continue it, and is a keyword exactly if it is reserved; an operator
other than a slash is the longest of its table; a dot, a question mark and a slash are not the
beginning of a number, a longer mark or operator, or a comment. -/
structure IsLongest (t : Token) (right : List Char) : Prop where
  word : t.hasKind .identifier = true ∨ t.hasKind .keyword = true →
    right.head?.any Lexeme.isNamePart = false ∧
      (t.hasKind .keyword = true ↔ Vocabulary.isReserved t.text = true)
  operator : t.hasKind .operator = true → t.text ≠ "/" → t.text ≠ "/=" →
    t.text ∈ Lexeme.operators ∧
      ∀ op ∈ Lexeme.operators, op.toList <+: t.text.toList ++ right → op.length ≤ t.text.length
  dot : t.isMark "." = true →
    right.head?.any isAsciiDigit = false ∧ ¬ ['.', '.'] <+: right
  question : t.isOperator "?" = true → right.head? = some '.' →
    right.tail.head?.any isAsciiDigit = true
  slash : t.isOperator "/" = true →
    right.head? ≠ some '=' ∧ right.head? ≠ some '/' ∧ right.head? ≠ some '*'

theorem isLongest_template (p : Position) (s : String) (inside : List Token)
    (right : List Char) : IsLongest (template p s inside) right where
  word h := by rcases h with h | h <;> cases h
  operator h := by cases h
  dot h := by cases h
  question h := by cases h
  slash h := by cases h

section Lexeme

variable {regexMayStart : Bool} {c d : Char} {cs : List Char} {kind : Kind} {n : Nat} {s : String}
  {right : List Char}

theorem take_cons_eq_singleton (hn : 0 < n) (h : (c :: cs).take n = [d]) :
    c = d ∧ (c :: cs).drop n = cs := by
  obtain ⟨m, rfl⟩ := Nat.exists_eq_succ_of_ne_zero (Nat.ne_of_gt hn)
  rw [List.take_succ_cons] at h
  obtain ⟨rfl, htail⟩ := List.cons.inj h
  refine ⟨rfl, ?_⟩
  rw [List.drop_succ_cons]
  exact (List.append_cancel_left_eq (cs.take m) _ _).mp (by rw [List.take_append_drop, htail]; rfl)

theorem longest_word (h : Lexeme.Begins regexMayStart c cs kind n)
    (htext : s.toList = (c :: cs).take n) (hkind : kind = .keyword ∨ kind = .identifier) :
    ((c :: cs).drop n).head?.any Lexeme.isNamePart = false ∧
      (kind = .keyword ↔ Vocabulary.isReserved s = true) := by
  cases h with
  | slash _ h => exact absurd h (Lexeme.afterSlash_ne_word hkind _ _ _)
  | name _ =>
    rw [Nat.add_comm, List.take_succ_cons,
      ← List.prefix_iff_eq_take.mp (List.takeWhile_prefix Lexeme.isNamePart)] at htext
    rw [Nat.add_comm, List.drop_succ_cons, Lexeme.nameKind, ← htext, String.ofList_toList]
    refine ⟨head?_drop_takeWhile _ _, ?_⟩
    split
    · next hreserved => simp [hreserved]
    · next hreserved => simp [hreserved]
  | quoted | number | mark | operator => rcases hkind with hkind | hkind <;> cases hkind

theorem longest_operator (h : Lexeme.Begins regexMayStart c cs .operator n)
    (htext : s.toList = (c :: cs).take n) (hslash : s ≠ "/") (hequals : s ≠ "/=") :
    s ∈ Lexeme.operators ∧
      ∀ op ∈ Lexeme.operators, op.toList <+: c :: cs → op.length ≤ s.length := by
  rcases h.operator_cases with ⟨rfl, hafter⟩ | ⟨_, hlength⟩
  · obtain ⟨_, _, rfl⟩ := Lexeme.afterSlash_operator hafter
    split at htext
    · next heq =>
      obtain ⟨rest, rfl⟩ := List.head?_eq_some_iff.mp heq
      exact absurd (String.toList_inj.mp htext) hequals
    · exact absurd (String.toList_inj.mp htext) hslash
  · obtain ⟨op, hop, hoptext, hlongest⟩ := Lexeme.exists_operator hlength
    obtain rfl : op = s := String.toList_inj.mp (hoptext.trans htext.symm)
    exact ⟨hop, hlongest⟩

theorem longest_dot (h : Lexeme.Begins regexMayStart c cs .punctuation n) (hn : 0 < n)
    (htext : (c :: cs).take n = ['.']) :
    ((c :: cs).drop n).head?.any isAsciiDigit = false ∧ ¬ ['.', '.'] <+: (c :: cs).drop n := by
  obtain ⟨rfl, hdrop⟩ := take_cons_eq_singleton hn htext
  obtain ⟨hnumber, hmark⟩ := h.mark_cases
  rw [hdrop]
  refine ⟨hnumber rfl, ?_⟩
  rintro ⟨rest, rfl⟩
  cases hmark
  cases htext

theorem longest_question (h : Lexeme.Begins regexMayStart c cs .operator n) (hn : 0 < n)
    (htext : (c :: cs).take n = ['?']) (hdot : ((c :: cs).drop n).head? = some '.') :
    ((c :: cs).drop n).tail.head?.any isAsciiDigit = true := by
  obtain ⟨rfl, hdrop⟩ := take_cons_eq_singleton hn htext
  rw [hdrop] at hdot ⊢
  rcases h.operator_cases with ⟨hc, _⟩ | ⟨hmark, _⟩
  · cases hc
  · exact Lexeme.markLength_question hmark hdot

theorem longest_slash (h : Lexeme.Begins regexMayStart c cs .operator n) (hn : 0 < n)
    (htext : (c :: cs).take n = ['/']) :
    ((c :: cs).drop n).head? ≠ some '=' ∧ ((c :: cs).drop n).head? ≠ some '/' ∧
      ((c :: cs).drop n).head? ≠ some '*' := by
  obtain ⟨rfl, hdrop⟩ := take_cons_eq_singleton hn htext
  rw [hdrop]
  rcases h.operator_cases with ⟨_, hafter⟩ | ⟨_, hlength⟩
  · obtain ⟨hline, hblock, rfl⟩ := Lexeme.afterSlash_operator hafter
    refine ⟨fun hequals => ?_, hline, hblock⟩
    obtain ⟨rest, rfl⟩ := List.head?_eq_some_iff.mp hequals
    cases htext
  · obtain ⟨op, hop, hoptext, _⟩ := Lexeme.exists_operator hlength
    have hnone : ∀ op ∈ Lexeme.operators, op.toList ≠ ['/'] := by decide
    exact absurd (hoptext.trans htext) (hnone op hop)

end Lexeme

/-- A lexeme that makes a token is as long as it can be. -/
theorem isLongest_of_head {previous : Option Token} {c : Char} {cs : List Char} {kind : Kind}
    {n : Nat} {t : Token} (h : Scan.headAfter previous c cs = .token kind n)
    (hkind : t.hasKind kind = true) (htext : t.text.toList = (c :: cs).take n) :
    IsLongest t ((c :: cs).drop n) := by
  obtain ⟨p, s, rfl⟩ := eq_of_hasKind hkind
  have hn : 0 < n := Scan.length_pos_of_headAfter h
  have hbegins := Lexeme.begins_of_head h
  have hchar {k : Kind} {s' : String} {d : Char} (hs : s'.toList = [d])
      (ht : (plain kind p s).is k s' = true) : kind = k ∧ (c :: cs).take n = [d] := by
    rw [is, Bool.and_eq_true, hasKind_plain, decide_eq_true_eq, beq_iff_eq] at ht
    exact ⟨ht.1, by rw [← htext, ht.2, hs]⟩
  constructor
  case word =>
    intro hword
    simp only [hasKind_plain, decide_eq_true_eq] at hword ⊢
    exact longest_word hbegins htext hword.symm
  case operator =>
    intro hoperator
    rw [hasKind_plain, decide_eq_true_eq] at hoperator
    subst hoperator
    rw [htext, List.take_append_drop]
    exact longest_operator hbegins htext
  case dot =>
    intro hdot
    obtain ⟨rfl, hown⟩ := hchar rfl hdot
    exact longest_dot hbegins hn hown
  case question =>
    intro hquestion
    obtain ⟨rfl, hown⟩ := hchar rfl hquestion
    exact longest_question hbegins hn hown
  case slash =>
    intro hslash
    obtain ⟨rfl, hown⟩ := hchar rfl hslash
    exact longest_slash hbegins hn hown

/-- Every token of a source, at every depth, is the longest that begins where it stands. -/
theorem isLongest_of_layer (source : String) {l : List Token} (h : Layer (tokenize source) l)
    {t : Token} (ht : t ∈ l) :
    ∃ left right, StandsBetween source t left right ∧ IsLongest t right := by
  obtain ⟨left, right, previous, c, hstands, hrest, hread⟩ := h.exists_readAt ht
  refine ⟨left, right, hstands, ?_⟩
  cases hkind : t.kind? with
  | none =>
    cases t with
    | plain kind p s => cases hkind
    | template p s inside => exact isLongest_template p s inside right
  | some kind =>
    have hkind : t.hasKind kind = true := by rw [hasKind, hkind, beq_self_eq_true]
    obtain ⟨ch, cs, n, _, hhead, htext, rfl⟩ := hread.exists_head hrest hkind
    exact isLongest_of_head hhead hkind htext

/-- Inside a literal, a question mark before a number and an operator of four characters. -/
theorem isLongest_inside_literal :
    Layer (tokenize "\x60$\x7ba?.5>>>=\x7d\x60")
        [.plain .identifier ⟨1, 4⟩ "a", .plain .operator ⟨1, 5⟩ "?",
          .plain .numeric ⟨1, 6⟩ ".5", .plain .operator ⟨1, 8⟩ ">>>="] ∧
      ∃ left right,
        StandsBetween "\x60$\x7ba?.5>>>=\x7d\x60" (.plain .operator ⟨1, 5⟩ "?") left right ∧
          IsLongest (.plain .operator ⟨1, 5⟩ "?") right := by
  have htokens : tokenize "\x60$\x7ba?.5>>>=\x7d\x60" =
      [.template .start "\x60$\x7ba?.5>>>=\x7d\x60"
        [.plain .identifier ⟨1, 4⟩ "a", .plain .operator ⟨1, 5⟩ "?",
          .plain .numeric ⟨1, 6⟩ ".5", .plain .operator ⟨1, 8⟩ ">>>="]] := rfl
  have hlayer : Layer (tokenize "\x60$\x7ba?.5>>>=\x7d\x60")
      [.plain .identifier ⟨1, 4⟩ "a", .plain .operator ⟨1, 5⟩ "?",
        .plain .numeric ⟨1, 6⟩ ".5", .plain .operator ⟨1, 8⟩ ">>>="] := by
    rw [htokens]
    exact .inner .outer (List.mem_singleton.mpr rfl)
  exact ⟨hlayer, isLongest_of_layer _ hlayer (List.mem_cons_of_mem _ List.mem_cons_self)⟩

end Token

end SymbolAtlas
