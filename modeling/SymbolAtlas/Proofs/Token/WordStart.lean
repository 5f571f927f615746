import Mathlib.Data.List.Basic
import SymbolAtlas.Proofs.Token.Tiling
import SymbolAtlas.Proofs.Token.Written

/-! # What stands before a word

A lexeme is as long as its characters go on, so it ends with a character that no name contains, or
before one at which no word begins. The exception is a stray character that could go on with a
name but cannot begin one: it is passed over, and a word may follow it.
-/

namespace SymbolAtlas

open Identifier

/-- The text `own` does not run into a word at its end, where `rest` follows: either the last
character of `own` cannot continue a name or is stray, or no letter comes next. -/
def IsBreak (own rest : List Char) : Prop :=
  (∀ d ∈ own.getLast?, Lexeme.isNamePart d = true → Lexeme.isStray d = true) ∨
    rest.head?.any isAsciiLetter = false

namespace IsBreak

variable {own rest : List Char}

theorem of_last (h : own.getLast?.any (!Lexeme.isNamePart ·) = true) : IsBreak own rest := by
  refine .inl fun d hd hpart => ?_
  rw [Option.mem_def.mp hd, Option.any_some, hpart] at h
  cases h

theorem of_rest {p : Char → Bool} (hp : ∀ e, isAsciiLetter e = true → p e = true)
    (h : rest.head?.any p = false) : IsBreak own rest := by
  refine .inr ?_
  cases rest with
  | nil => rfl
  | cons e rest =>
    rw [List.head?_cons, Option.any_some, Bool.eq_false_iff] at h ⊢
    exact mt (hp e) h

theorem of_rest_nil (h : rest = []) : IsBreak own rest := .inr (by rw [h]; rfl)

theorem append (h : IsBreak own rest) (hne : own ≠ []) (before : List Char) :
    IsBreak (before ++ own) rest := by
  rwa [IsBreak, List.getLast?_append_of_ne_nil _ hne]

end IsBreak

namespace Lexeme

/-! ## Ends of lexemes -/

theorem isNamePart_of_isAsciiLetter (c : Char) (h : isAsciiLetter c = true) :
    isNamePart c = true :=
  isNamePart_of_ascii (by rw [isAsciiNamePart, isAsciiWord, h]; rfl)

theorem isNumberPart_of_isAsciiLetter (c : Char) (h : isAsciiLetter c = true) :
    isNumberPart c = true := by
  rw [isNumberPart, isAsciiWord, h]
  rfl

theorem ne_lineFeed_of_isAsciiLetter (c : Char) (h : isAsciiLetter c = true) :
    (c != '\n') = true := by
  rw [bne_iff_ne]
  rintro rfl
  revert h
  decide

theorem isNamePart_of_isGap {c : Char} (h : isGap c = true) : isNamePart c = false := by
  simp only [isGap, Bool.or_eq_true, beq_iff_eq] at h
  rcases h with ((((((rfl | rfl) | rfl) | rfl) | rfl) | rfl) | rfl) | rfl <;> decide +kernel

theorem head?_drop_numberTail (hasBase : Bool) (previous : Char) (cs : List Char) :
    (cs.drop (numberTail hasBase previous cs)).head?.any isNumberPart = false := by
  fun_induction numberTail hasBase previous cs with
  | case1 => rfl
  | case2 previous c cs _ _ ih =>
    rw [Nat.add_comm, List.drop_succ_cons]
    exact ih
  | case3 previous c cs isExponentSign h =>
    rw [Bool.or_eq_true, not_or] at h
    simpa using h.1

/-- A string ends with its quote, or with the text. -/
theorem throughQuote_cases (quote : Char) (cs : List Char) :
    (∃ text rest, cs = text ++ quote :: rest ∧ throughQuote quote cs = text.length + 1) ∨
      throughQuote quote cs = cs.length := by
  fun_induction throughQuote quote cs with
  | case1 => exact .inr rfl
  | case2 => exact .inr rfl
  | case3 d cs ih =>
    rcases ih with ⟨text, rest, rfl, hlength⟩ | hlength
    · refine .inl ⟨'\\' :: d :: text, rest, rfl, ?_⟩
      rw [hlength, List.length_cons, List.length_cons]
      omega
    · refine .inr ?_
      rw [hlength, List.length_cons, List.length_cons]
      omega
  | case4 cs => exact .inl ⟨[], cs, rfl, rfl⟩
  | case5 c cs _ _ _ ih =>
    rcases ih with ⟨text, rest, rfl, hlength⟩ | hlength
    · refine .inl ⟨c :: text, rest, rfl, ?_⟩
      rw [hlength, List.length_cons]
      omega
    · refine .inr ?_
      rw [hlength, List.length_cons]
      omega

/-- A lexeme that takes `n` characters of the text does not run into a word. -/
def EndsWord (cs : List Char) (n : Nat) : Prop := IsBreak (cs.take n) (cs.drop n)

theorem endsWord_of_last {own : List Char} (h : own.getLast?.any (!isNamePart ·) = true)
    (rest : List Char) : EndsWord (own ++ rest) own.length := by
  rw [EndsWord, List.take_left]
  exact .of_last h

theorem endsWord_of_length_le {cs : List Char} {n : Nat} (h : cs.length ≤ n) : EndsWord cs n :=
  .of_rest_nil (List.drop_eq_nil_of_le h)

theorem endsWord_of_gap {regexMayStart : Bool} {c : Char} {cs : List Char} {n : Nat}
    (h : head regexMayStart c cs = .gap n) : EndsWord (c :: cs) n := by
  rcases gap_cases h with ⟨hc, rfl⟩ | ⟨ds, rfl, rfl, rfl⟩ | ⟨ds, rfl, rfl, rfl⟩
  · rcases hc with hc | hc
    · exact @endsWord_of_last [c] (by simp [isNamePart_of_isGap hc]) cs
    · refine .inl fun d hd _ => ?_
      obtain rfl : c = d := Option.some.inj hd
      exact hc
  · refine .of_rest ne_lineFeed_of_isAsciiLetter ?_
    rw [Nat.add_comm, List.drop_succ_cons]
    exact head?_drop_takeWhile _ _
  · rcases throughCommentEnd_cases ds with ⟨text, rest, rfl, hlength, -⟩ | ⟨hlength, -⟩
    · have hlast : ('/' :: '*' :: text ++ ['*', '/']).getLast?.any (!isNamePart ·) = true := by
        rw [List.getLast?_append_cons]
        decide +kernel
      rw [hlength]
      simpa [Nat.add_comm, Nat.add_left_comm] using endsWord_of_last hlast rest
    · exact endsWord_of_length_le (by rw [hlength, List.length_cons, List.length_cons]; omega)

theorem endsWord_of_quote {c : Char} (hc : isNamePart c = false) (cs : List Char) :
    EndsWord (c :: cs) (1 + throughQuote c cs) := by
  rcases throughQuote_cases c cs with ⟨text, rest, rfl, hlength⟩ | hlength
  · have hlast : (c :: text ++ [c]).getLast?.any (!isNamePart ·) = true := by
      rw [List.getLast?_concat, Option.any_some, hc]
      rfl
    rw [hlength]
    simpa [Nat.add_comm] using endsWord_of_last hlast rest
  · exact endsWord_of_length_le (by rw [hlength, List.length_cons]; omega)

theorem endsWord_of_mark {cs : List Char} {n : Nat} (h : markLength? cs = some n) :
    EndsWord cs n := by
  unfold markLength? at h
  split at h
  · obtain rfl := Option.some.inj h
    exact @endsWord_of_last ['.', '.', '.'] (by decide +kernel) _
  · split at h
    · cases h
    · obtain rfl := Option.some.inj h
      exact @endsWord_of_last ['?', '.'] (by decide +kernel) _
  · next c cs _ _ =>
    split at h
    · next hc =>
      obtain rfl := Option.some.inj h
      have every : marks.all (!isNamePart ·) = true := by decide +kernel
      exact @endsWord_of_last [c] (List.all_eq_true.mp every c (List.contains_iff_mem.mp hc)) cs
    · cases h
  · cases h

theorem endsWord_of_operator {cs : List Char} {n : Nat} (h : operatorLength? cs = some n) :
    EndsWord cs n := by
  have every : ∀ op ∈ operators, op.toList.getLast?.any (!isNamePart ·) = true := by
    decide +kernel
  obtain ⟨op, hop, rfl⟩ := Option.map_eq_some_iff.mp h
  have hprefix : op.toList.isPrefixOf cs = true := by simpa using List.find?_some hop
  obtain ⟨rest, rfl⟩ := List.isPrefixOf_iff_prefix.mp hprefix
  exact endsWord_of_last (every op (List.mem_of_find?_eq_some hop)) rest

theorem endsWord_of_afterSlash {regexMayStart : Bool} {cs : List Char} {kind : Token.Kind}
    {n : Nat} (h : afterSlash regexMayStart cs = .token kind n) : EndsWord ('/' :: cs) n := by
  unfold afterSlash at h
  split at h
  · cases h
  · cases h
  split at h
  · next m hregex =>
    obtain ⟨-, rfl⟩ := Lexeme.token.inj h
    split at hregex
    · obtain ⟨body, -, rfl⟩ := Option.map_eq_some_iff.mp hregex
      refine .of_rest (fun _ => id) ?_
      rw [Nat.add_comm, List.drop_succ_cons, ← List.drop_drop]
      exact head?_drop_takeWhile _ _
    · cases hregex
  · obtain ⟨-, rfl⟩ := Lexeme.token.inj h
    split
    · next hequal =>
      obtain ⟨rest, rfl⟩ := List.head?_eq_some_iff.mp (beq_iff_eq.mp hequal)
      exact @endsWord_of_last ['/', '='] (by decide +kernel) rest
    · exact @endsWord_of_last ['/'] (by decide +kernel) cs

/-- No lexeme but the opening of a template literal runs into a word at its end. -/
theorem endsWord_head {regexMayStart : Bool} {c : Char} {cs : List Char}
    (h : head regexMayStart c cs ≠ .backquote) :
    EndsWord (c :: cs) (head regexMayStart c cs).length := by
  cases hl : head regexMayStart c cs with
  | backquote => exact absurd hl h
  | gap n => exact endsWord_of_gap hl
  | token kind n =>
  rw [length]
  cases IsHead.of_head hl with
  | slash hslash hafter =>
    subst hslash
    exact endsWord_of_afterSlash hafter
  | quoted hquote =>
    rcases hquote with rfl | rfl <;> exact endsWord_of_quote (by decide +kernel) cs
  | name =>
    refine .of_rest isNamePart_of_isAsciiLetter ?_
    rw [Nat.add_comm, List.drop_succ_cons]
    exact head?_drop_takeWhile _ _
  | number =>
    refine .of_rest isNumberPart_of_isAsciiLetter ?_
    rw [Nat.add_comm, List.drop_succ_cons]
    exact head?_drop_numberTail _ _ _
  | mark _ h => exact endsWord_of_mark h
  | operator _ h => exact endsWord_of_operator h

end Lexeme

/-! ## Places at which tokens begin -/

/-- No name runs into the place of the cursor. -/
def Cursor.IsBreak (source : List Char) (c : Cursor) : Prop :=
  SymbolAtlas.IsBreak (source.take c.offset) c.rest

namespace Scan

variable {source : List Char}

theorem isBreak_codeStart (source : List Char) : (codeStart source).IsBreak source := by
  by_cases h : ['#', '!'] <+: source
  · rw [codeStart_of_interpreter h]
    refine .of_rest Lexeme.ne_lineFeed_of_isAsciiLetter ?_
    rw [Cursor.advance_rest]
    exact head?_drop_takeWhile _ _
  · rw [codeStart_of_not_interpreter h]
    exact .inl fun d hd => by cases hd

theorem isBreak_advance {previous : Option Token} {c : Cursor} {ch : Char} {cs : List Char}
    {lexeme : Lexeme} (h : c.IsIn source) (hc : c.rest = ch :: cs)
    (hhead : headAfter previous ch cs = lexeme) (hne : lexeme ≠ .backquote) :
    (c.advance lexeme.length).IsBreak source := by
  have hpos : 0 < lexeme.length := length_pos_of_headAfter hhead
  have hends : Lexeme.EndsWord (ch :: cs) lexeme.length := by
    rw [headAfter] at hhead
    exact hhead ▸ Lexeme.endsWord_head (hhead ▸ hne)
  rw [Cursor.IsBreak, h.take_reaches (.advance c _), Cursor.slice_advance, Cursor.advance_rest, hc]
  refine hends.append (fun hnil => ?_) _
  rcases List.take_eq_nil_iff.mp hnil with hzero | hnil
  · omega
  · cases hnil

theorem isBreak_literal {c last : Cursor} {groups : List (List Token)} {isClosed : Bool}
    (h : c.IsIn source) (body : Template c groups last isClosed) : last.IsBreak source := by
  rcases body.ends with hlast | ⟨text, hrest⟩
  · exact .of_rest_nil hlast
  · have hslice : c.slice last = text ++ ['\x60'] :=
      body.reaches.slice_eq (by rw [hrest, List.append_assoc]; rfl)
    rw [Cursor.IsBreak, h.take_reaches body.reaches, hslice, ← List.append_assoc]
    refine .of_last ?_
    rw [List.getLast?_concat]
    decide +kernel

/-- No name runs into a token. -/
theorem Code.isBreak_of_mem {nesting : Nesting} {previous : Option Token} {c stop : Cursor}
    {ts : List Token} {t : Token} :
    Code nesting previous c ts stop → c.IsIn source → c.IsBreak source → t ∈ ts →
      ∃ start finish : Cursor, start.IsIn source ∧ start.Reaches finish ∧ start.IsBreak source ∧
        t.position = start.position ∧ t.text.toList = start.slice finish
  | .done _, _, _, ht => absurd ht List.not_mem_nil
  | .gap hc hhead next, h, _, ht =>
    next.isBreak_of_mem (h.advance _) (isBreak_advance h hc hhead Lexeme.noConfusion) ht
  | .closing _ _ _, _, _, ht => absurd ht List.not_mem_nil
  | .token hc hhead _ next, h, hbreak, ht => by
    rcases List.mem_cons.mp ht with rfl | ht
    · exact ⟨c, _, h, .advance c _, hbreak, rfl, String.toList_ofList⟩
    · exact next.isBreak_of_mem (h.advance _) (isBreak_advance h hc hhead Lexeme.noConfusion) ht
  | .literal hc hhead body next, h, hbreak, ht => by
    have hreaches := Cursor.Reaches.of_advance body.reaches
    rcases List.mem_cons.mp ht with rfl | ht
    · exact ⟨c, _, h, hreaches, hbreak, rfl, String.toList_ofList⟩
    · exact next.isBreak_of_mem (h.reaches hreaches) (isBreak_literal (h.advance 1) body) ht

end Scan

/-- A token whose text begins with a letter is not the end of a longer name: what stands before it
cannot continue a name, or is a stray character. -/
theorem exists_before_word {source : String} {t : Token} (ht : t ∈ tokenize source)
    (hletter : t.text.toList.head?.any isAsciiLetter = true) :
    ∃ before after, source.toList = before ++ (t.text.toList ++ after) ∧
      t.position = Position.start.after before ∧
      ∀ d ∈ before.getLast?, Lexeme.isNamePart d = true → Lexeme.isStray d = true := by
  obtain ⟨stop, reading⟩ := tokenize_reads source
  obtain ⟨start, finish, hstart, hreaches, hbreak, hposition, htext⟩ :=
    reading.isBreak_of_mem (Scan.codeStart_isIn _) (Scan.isBreak_codeStart _) ht
  refine ⟨source.toList.take start.offset, finish.rest, ?_, ?_, ?_⟩
  · rw [htext, ← hreaches.rest_eq, hstart.rest_eq, List.take_append_drop]
  · rw [hposition, hstart.position_eq]
  · rcases hbreak with hbreak | hbreak
    · exact hbreak
    · rw [hreaches.rest_eq, ← htext, List.head?_append_of_ne_nil] at hbreak
      · rw [hletter] at hbreak
        cases hbreak
      · intro hnil
        rw [hnil] at hletter
        cases hletter

end SymbolAtlas
