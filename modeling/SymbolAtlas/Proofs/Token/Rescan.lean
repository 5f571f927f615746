import SymbolAtlas.Proofs.Token.Layer
import SymbolAtlas.Proofs.Token.Moved

/-! # Tokens read again

The text of a token is a source of which it is the only token. What decided where the token ends,
the token before it and what stood behind it among other things, is decided in the same way when
its text stands alone.
-/

namespace SymbolAtlas

open Identifier

namespace Position

def relativeTo (p origin : Position) : Position :=
  ⟨p.line - origin.line + 1,
    if p.line = origin.line then p.column - origin.column + 1 else p.column⟩

@[simp] theorem relativeTo_self (p : Position) : p.relativeTo p = start := by
  simp [relativeTo, start]

theorem relativeTo_next {p origin : Position} (h : origin.line ≤ p.line) (c : Char) :
    (p.next c).relativeTo origin = (p.relativeTo origin).next c := by
  unfold next relativeTo
  by_cases hc : c = '\n'
  · simp only [hc, if_true, Position.mk.injEq]
    rw [if_neg (by omega)]
    omega
  · simp only [hc, if_false, Position.mk.injEq, true_and]
    split <;> omega

theorem le_line_next (p : Position) (c : Char) : p.line ≤ (p.next c).line := by
  unfold next
  split
  · exact Int.le_add_one (Int.le_refl _)
  · exact Int.le_refl _

theorem relativeTo_after {p origin : Position} (h : origin.line ≤ p.line) (text : List Char) :
    (p.after text).relativeTo origin = (p.relativeTo origin).after text := by
  induction text generalizing p with
  | nil => rfl
  | cons c text ih =>
    rw [after_cons, after_cons, ih (Int.le_trans h (le_line_next p c)), relativeTo_next h]

theorem start_after_eq (origin : Position) (text : List Char) :
    start.after text = (origin.after text).relativeTo origin := by
  rw [relativeTo_after (Int.le_refl _), relativeTo_self]

end Position

namespace Lexeme

theorem head_slash (regexMayStart : Bool) (cs : List Char) :
    head regexMayStart '/' cs = afterSlash regexMayStart cs := rfl

/-- A token that takes a whole text does not depend on what stands before it: a slash that divides
is no regular expression alone. -/
theorem head_alone {regexMayStart : Bool} {c : Char} {cs : List Char} {kind : Token.Kind} {n : Nat}
    (h : head regexMayStart c cs = .token kind n) (hn : cs.length < n) :
    head true c cs = .token kind n := by
  cases regexMayStart with
  | true => exact h
  | false =>
    by_cases hslash : c = '/'
    · subst hslash
      rw [head_slash] at h ⊢
      have hline : cs.head? ≠ some '/' := by
        intro hline
        obtain ⟨ds, rfl⟩ := List.head?_eq_some_iff.mp hline
        cases h
      have hblock : cs.head? ≠ some '*' := by
        intro hblock
        obtain ⟨ds, rfl⟩ := List.head?_eq_some_iff.mp hblock
        cases h
      rw [afterSlash_eq hline hblock, Bool.false_and, if_neg Bool.false_ne_true] at h
      -- Nothing but the operator itself is left, and it opens no regular expression.
      by_cases hequals : cs.head? = some '='
      · obtain ⟨ds, rfl⟩ := List.head?_eq_some_iff.mp hequals
        cases h
        simp only [List.length_cons, List.head?_cons, beq_self_eq_true, if_true] at hn
        obtain rfl : ds = [] := List.eq_nil_of_length_eq_zero (by omega)
        rfl
      · rw [beq_eq_false_iff_ne.mpr hequals, if_neg Bool.false_ne_true] at h
        cases h
        obtain rfl : cs = [] := List.eq_nil_of_length_eq_zero (by omega)
        rfl
    · unfold head at h ⊢
      rw [if_neg hslash] at h ⊢
      exact h

/-- A question mark before a number is an operator. -/
theorem head_question (regexMayStart : Bool) {cs : List Char}
    (h : cs.head?.any isAsciiDigit = true) :
    head regexMayStart '?' ('.' :: cs) = .token .operator 1 := by
  have hmark : markLength? ('?' :: '.' :: cs) = none := by
    rw [markLength?]
    exact if_pos h
  unfold head
  rw [hmark]
  rfl

theorem not_interpreterLine {regexMayStart : Bool} {c : Char} {cs : List Char} {kind : Token.Kind}
    {n : Nat} (h : head regexMayStart c cs = .token kind n) (hn : cs.length < n) :
    ¬ ['#', '!'] <+: c :: cs := by
  rintro ⟨rest, hrest⟩
  rw [List.cons_append, List.singleton_append] at hrest
  cases hrest
  have hmark : head regexMayStart '#' ('!' :: rest) = .token .punctuation 1 := rfl
  rw [hmark] at h
  cases h
  exact absurd hn (by simp)

end Lexeme

namespace Scan

open Token

theorem Code.tokenize_of_start {source : String} {ts : List Token} {stop : Cursor}
    (hstart : ¬ ['#', '!'] <+: source.toList)
    (reading : Code .outside none (.ofList source.toList) ts stop) : tokenize source = ts := by
  rw [← codeStart_of_not_interpreter hstart] at reading
  exact reading.tokenize_eq

/-- A lexeme that makes a token makes the same token where nothing follows it. -/
theorem headAfter_alone {previous : Option Token} {ch : Char} {cs : List Char} {kind : Kind}
    {m : Nat} (h : headAfter previous ch cs = .token kind (m + 1)) :
    headAfter none ch (cs.take m) = .token kind (m + 1) := by
  rw [headAfter] at h
  have hcut : Lexeme.head (previous.all mayPrecedeRegex) ch (cs.take m) = .token kind (m + 1) := by
    by_cases hm : m ≤ cs.length
    · rw [← List.take_append_drop m cs] at h
      rw [← Lexeme.head_cut, h]
      · exact Nat.le_of_eq (by rw [h, Lexeme.length, List.length_take_of_le hm])
      · rintro rfl hdot
        -- Before a digit the question mark alone would be the token.
        rw [Bool.eq_false_iff]
        intro hdigit
        rw [hdot, List.singleton_append, Lexeme.head_question _ hdigit] at h
        cases h
        cases hdot
    · rwa [List.take_of_length_le (Nat.le_of_not_le hm)]
  exact Lexeme.head_alone hcut (Nat.lt_succ_of_le (List.length_take_le m cs))

/-- The text of a lexeme that makes a token is scanned as this token. -/
theorem tokenize_lexeme {previous : Option Token} {c : Cursor} {ch : Char} {cs : List Char}
    {kind : Kind} {n : Nat} (hc : c.rest = ch :: cs)
    (hhead : headAfter previous ch cs = .token kind n) :
    tokenize (tokenBetween kind c (c.advance n)).text =
      [.plain kind .start (tokenBetween kind c (c.advance n)).text] := by
  obtain ⟨m, rfl⟩ := Nat.exists_eq_add_of_lt (length_pos_of_headAfter hhead)
  rw [Nat.zero_add] at hhead ⊢
  have halone := headAfter_alone hhead
  have htext : (tokenBetween kind c (c.advance (m + 1))).text.toList = ch :: cs.take m := by
    rw [tokenBetween, text, String.toList_ofList, Cursor.slice_advance, hc, List.take_succ_cons]
  have hlength : (ch :: cs.take m).length ≤ m + 1 :=
    Nat.succ_le_succ (List.length_take_le m cs)
  have hend : ((Cursor.ofList (ch :: cs.take m)).advance (m + 1)).rest = [] := by
    rw [Cursor.advance_rest, Cursor.ofList, List.drop_of_length_le hlength]
  have htoken : tokenBetween kind (.ofList (ch :: cs.take m))
      ((Cursor.ofList (ch :: cs.take m)).advance (m + 1)) =
        .plain kind .start (String.ofList (ch :: cs.take m)) := by
    rw [tokenBetween, Cursor.slice_advance, Cursor.ofList, List.take_of_length_le hlength]
  have reading : Code .outside none (.ofList (ch :: cs.take m)) [_] _ :=
    .token rfl halone rfl (.done hend)
  rw [htoken, ← htext, String.ofList_toList] at reading
  refine reading.tokenize_of_start ?_
  rw [htext]
  exact Lexeme.not_interpreterLine halone hlength

theorem matches_literal {c last : Cursor} {groups : List (List Token)} {isClosed : Bool}
    (hquote : c.rest.head? = some '\x60') (body : Template (c.advance 1) groups last isClosed) :
    c.Matches (·.relativeTo c.position) last.rest (.ofList (c.slice last)) where
  rest_eq := (Cursor.Reaches.of_advance body.reaches).rest_eq
  position_after text := Position.start_after_eq c.position text
  uncut hdot := by
    rcases body.ends with hrest | ⟨text, hrest⟩
    · rw [hrest]
      rfl
    · have hslice : c.slice last = '\x60' :: text ++ ['\x60'] := by
        apply (Cursor.Reaches.of_advance body.reaches).slice_eq
        obtain ⟨rest, hc⟩ := List.head?_eq_some_iff.mp hquote
        rw [Cursor.advance_rest, hc, List.drop_succ_cons, List.drop_zero] at hrest
        rw [hc, hrest]
        simp
      rw [Cursor.ofList, hslice, List.getLast?_concat] at hdot
      cases hdot

/-- The text of a template literal is scanned as this literal. -/
theorem tokenize_literal {c last : Cursor} {groups : List (List Token)} {isClosed : Bool}
    (hquote : c.rest.head? = some '\x60') (body : Template (c.advance 1) groups last isClosed) :
    tokenize (literalBetween c last groups).text =
      [(literalBetween c last groups).move (·.relativeTo c.position)] := by
  have hmatches := matches_literal hquote body
  have hn := hmatches.le_or_nil body.reaches.rest_length_le
  obtain ⟨rest, hc⟩ := List.head?_eq_some_iff.mp hquote
  obtain ⟨ds, hds, _⟩ := hmatches.exists_cons hc (hn.imp_left (Nat.lt_of_lt_of_le Nat.one_pos))
  obtain ⟨stop, hbody, hstop⟩ := body.moved (hmatches.advance hn) (Nat.le_refl _)
  have hend : stop.rest = [] := List.append_cancel_right hstop.rest_eq.symm
  have hliteral := (Cursor.Matches.simulation _ _).literalBetween_eq hmatches hstop
    (.of_advance body.reaches) (.of_advance hbody.reaches) groups
  have reading : Code .outside none (.ofList (c.slice last)) [_] _ :=
    .literal hds rfl hbody (.done hend)
  rw [hliteral] at reading
  have htext : (literalBetween c last groups).text.toList = c.slice last := by
    rw [literalBetween, text, String.toList_ofList]
  rw [← htext] at reading
  refine reading.tokenize_of_start ?_
  rw [htext]
  rintro ⟨after, hafter⟩
  rw [← hafter] at hds
  cases hds

/-- Each token that is read gives itself when its text is read alone. -/
theorem Code.tokenize_of_mem {nesting : Nesting} {previous : Option Token} {c stop : Cursor}
    {ts : List Token} {t : Token} (reading : Code nesting previous c ts stop) (ht : t ∈ ts) :
    tokenize t.text = [t.move (·.relativeTo t.position)] := by
  rcases reading.exists_of_mem ht with
    ⟨_, c, _, _, _, _, hc, hhead, rfl⟩ | ⟨c, _, _, _, hquote, body, rfl⟩
  · rw [tokenize_lexeme hc hhead, tokenBetween, move_plain, position, Position.relativeTo_self]
    rfl
  · exact tokenize_literal hquote body

end Scan

namespace Token

theorem Layer.exists_code {source : String} {l : List Token} {t : Token}
    (h : Layer (tokenize source) l) (ht : t ∈ l) :
    ∃ nesting previous c ts stop, Scan.Code nesting previous c ts stop ∧ t ∈ ts := by
  cases h with
  | outer =>
    obtain ⟨stop, reading⟩ := tokenize_reads source
    exact ⟨_, _, _, _, stop, reading, ht⟩
  | inner h hmem =>
    obtain ⟨groups, isClosed, hliteral⟩ := h.exists_isLiteral hmem
    rw [hliteral.inside_eq] at ht
    obtain ⟨c, last, hc, _, body, _⟩ := hliteral
    obtain ⟨group, hgroup, ht⟩ := List.mem_flatten.mp ht
    obtain ⟨start, stop, _, code⟩ := body.code_of_mem (hc.advance 1) hgroup
    exact ⟨_, _, _, _, stop, code, ht⟩

/-- Scanned alone, the text of a token gives one token: the same at the place where every text
begins, with the tokens inside it placed relative to its beginning. -/
theorem tokenize_text (source : String) {l : List Token} (h : Layer (tokenize source) l)
    {t : Token} (ht : t ∈ l) :
    tokenize t.text = [t.move (·.relativeTo t.position)] := by
  obtain ⟨nesting, previous, c, ts, stop, reading, ht⟩ := h.exists_code ht
  exact reading.tokenize_of_mem ht

/-- A literal inside an interpolation begins the second line, and the first of its own text. -/
theorem tokenize_text_inside_literal :
    Layer (tokenize "\x60$\x7ba\n\x60$\x7bb\x7d\x60\x7d\x60")
        [.plain .identifier ⟨1, 4⟩ "a",
          .template ⟨2, 1⟩ "\x60$\x7bb\x7d\x60" [.plain .identifier ⟨2, 4⟩ "b"]] ∧
      tokenize "\x60$\x7bb\x7d\x60" =
        [.template .start "\x60$\x7bb\x7d\x60" [.plain .identifier ⟨1, 4⟩ "b"]] := by
  have htokens : tokenize "\x60$\x7ba\n\x60$\x7bb\x7d\x60\x7d\x60" =
      [.template .start "\x60$\x7ba\n\x60$\x7bb\x7d\x60\x7d\x60"
        [.plain .identifier ⟨1, 4⟩ "a",
          .template ⟨2, 1⟩ "\x60$\x7bb\x7d\x60" [.plain .identifier ⟨2, 4⟩ "b"]]] := rfl
  have hlayer : Layer (tokenize "\x60$\x7ba\n\x60$\x7bb\x7d\x60\x7d\x60")
      [.plain .identifier ⟨1, 4⟩ "a",
        .template ⟨2, 1⟩ "\x60$\x7bb\x7d\x60" [.plain .identifier ⟨2, 4⟩ "b"]] := by
    rw [htokens]
    exact .inner .outer (List.mem_singleton.mpr rfl)
  have hagain := tokenize_text _ hlayer (List.mem_cons_of_mem _ (List.mem_singleton.mpr rfl))
  rw [move_template] at hagain
  exact ⟨hlayer, hagain⟩

end Token

end SymbolAtlas
