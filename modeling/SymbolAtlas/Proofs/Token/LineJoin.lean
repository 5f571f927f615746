import SymbolAtlas.Proofs.Text.LineIndex
import SymbolAtlas.Proofs.Token.Moved

/-! # Sources joined by a line feed

No look-ahead of the scanner passes a line feed unless it stands in a string literal, a template
literal or a block comment, or after a backslash. So a source that leaves none of these open can
be scanned apart from the lines that follow it.
-/

namespace SymbolAtlas

open Identifier

namespace Position

def down (n : Nat) (p : Position) : Position := ⟨p.line + n, p.column⟩

theorem down_next (n : Nat) (p : Position) (c : Char) : (p.down n).next c = (p.next c).down n := by
  unfold next down
  split
  · simp only [Position.mk.injEq, and_true]
    omega
  · rfl

theorem down_after (n : Nat) (p : Position) (text : List Char) :
    (p.down n).after text = (p.after text).down n := by
  induction text generalizing p with
  | nil => rfl
  | cons c text ih => rw [after_cons, after_cons, down_next, ih]

/-- After a text and a line feed, a line begins. -/
theorem start_after_lineFeed (text : List Char) :
    (start.after text).next '\n' = start.down (1 + text.count '\n') := by
  rw [next, if_pos rfl, after_line]
  simp only [start, down, Position.mk.injEq, and_true]
  omega

end Position

namespace Cursor

/-- The same place in a text that goes on with `beyond`. -/
def followedBy (c : Cursor) (beyond : List Char) : Cursor := { c with rest := c.rest ++ beyond }

variable {beyond : List Char} {c stop : Cursor} {n : Nat}

theorem followedBy_advance (h : n ≤ c.rest.length) :
    (c.followedBy beyond).advance n = (c.advance n).followedBy beyond := by
  induction n generalizing c with
  | zero => rfl
  | succ n ih =>
    obtain ⟨o, p, rest⟩ := c
    cases rest with
    | nil => exact absurd h (Nat.not_succ_le_zero n)
    | cons ch cs =>
      have hn : n ≤ cs.length := Nat.le_of_succ_le_succ h
      exact @ih ⟨o + 1, p.next ch, cs⟩ hn

theorem slice_followedBy (h : c.Reaches stop) :
    (c.followedBy beyond).slice (stop.followedBy beyond) = c.slice stop := by
  obtain ⟨n, rfl⟩ := h
  rw [slice, slice]
  apply List.take_append_of_le_length
  simp only [followedBy, advance_offset]
  omega

theorem le_of_advance_pos (h : 0 < (c.advance n).rest.length) : n ≤ c.rest.length := by
  rw [advance_rest_length] at h
  omega

/-- What the text does not end in, no later part of it ends in. -/
theorem Reaches.getLast?_ne {ch : Char} (hr : c.Reaches stop) (h : c.rest.getLast? ≠ some ch) :
    stop.rest.getLast? ≠ some ch := by
  obtain ⟨n, rfl⟩ := hr
  rw [advance_rest, List.getLast?_drop]
  split
  · exact Option.some_ne_none ch |>.symm
  · exact h

end Cursor

namespace Lexeme

/-- Whether a quote that no backslash precedes stands in a text. -/
def closesQuote (quote : Char) : List Char → Bool
  | [] => false
  | ['\\'] => false
  | '\\' :: _ :: cs => closesQuote quote cs
  | c :: cs => c = quote || closesQuote quote cs

def closesComment : List Char → Bool
  | [] => false
  | '*' :: '/' :: _ => true
  | _ :: cs => closesComment cs

/-- Whether the string literal or block comment at the head of `c :: cs` is closed, if it is one
of these that stands there. -/
def isClosed (c : Char) (cs : List Char) : Bool :=
  match c, cs with
  | '"', _ => closesQuote '"' cs
  | '\'', _ => closesQuote '\'' cs
  | '/', '*' :: rest => closesComment rest
  | _, _ => true

variable {cs beyond more : List Char}

/-! ## What a closing mark ends -/

theorem throughQuote_le {quote : Char} (h : closesQuote quote cs = true) :
    throughQuote quote (cs ++ beyond) ≤ cs.length := by
  fun_induction closesQuote quote cs with
  | case1 => cases h
  | case2 => cases h
  | case3 d cs ih =>
    have := ih h
    simp only [List.cons_append, throughQuote, List.length_cons]
    omega
  | case4 c cs hlone hescape ih =>
    rw [List.cons_append, throughQuote_cons (ne_backslash hlone hescape), List.length_cons]
    split
    · omega
    · next hquote =>
      have := ih (by simpa [hquote] using h)
      omega

theorem throughQuote_of_not_closes {quote : Char} (h : closesQuote quote cs = false) :
    throughQuote quote cs = cs.length := by
  fun_induction closesQuote quote cs with
  | case1 => rfl
  | case2 => rfl
  | case3 d cs ih =>
    simp only [throughQuote, List.length_cons, ih h]
    omega
  | case4 c cs hlone hescape ih =>
    rw [Bool.or_eq_false_iff, decide_eq_false_iff_not] at h
    rw [throughQuote_cons (ne_backslash hlone hescape), if_neg h.1, ih h.2, List.length_cons]
    omega

theorem throughCommentEnd_le (h : closesComment cs = true) :
    throughCommentEnd (cs ++ beyond) ≤ cs.length := by
  fun_induction closesComment cs with
  | case1 => cases h
  | case2 cs => simp [throughCommentEnd]
  | case3 c cs hne ih =>
    rw [List.cons_append, List.length_cons, throughCommentEnd_cons, Nat.add_comm]
    · exact Nat.succ_le_succ (ih h)
    · rintro rfl hslash
      cases cs with
      | nil => cases h
      | cons d cs =>
        cases hslash
        exact hne cs rfl rfl

theorem throughCommentEnd_of_not_closes (h : closesComment cs = false) :
    throughCommentEnd cs = cs.length := by
  fun_induction closesComment cs with
  | case1 => rfl
  | case2 cs => cases h
  | case3 c cs hne ih =>
    rw [throughCommentEnd, ih h, List.length_cons, Nat.add_comm]
    exact fun rest hc hrest => hne rest hc hrest

/-- What is not closed takes the whole text. -/
theorem length_head_of_not_isClosed {regexMayStart : Bool} {c : Char}
    (h : isClosed c cs = false) : (head regexMayStart c cs).length = cs.length + 1 := by
  unfold isClosed at h
  split at h
  · rw [← throughQuote_of_not_closes h, Nat.add_comm]
    rfl
  · rw [← throughQuote_of_not_closes h, Nat.add_comm]
    rfl
  · next rest =>
    rw [List.length_cons, ← throughCommentEnd_of_not_closes h, Nat.add_assoc, Nat.add_comm]
    rfl
  · cases h

/-! ## Where a character stops the look-ahead -/

theorem takeWhile_stop {p : Char → Bool} {stop : Char} (hp : p stop = false) :
    ((cs ++ stop :: more).takeWhile p).length ≤ cs.length := by
  induction cs with
  | nil => simp [hp]
  | cons c cs ih =>
    rw [List.cons_append, List.takeWhile_cons]
    split
    · exact Nat.succ_le_succ ih
    · exact Nat.zero_le _

theorem numberTail_stop {hasBase : Bool} {previous stop : Char} (hpart : isNumberPart stop = false)
    (hsign : stop ≠ '+' ∧ stop ≠ '-') :
    numberTail hasBase previous (cs ++ stop :: more) ≤ cs.length := by
  induction cs generalizing previous with
  | nil => simp [numberTail, hpart, hsign]
  | cons c cs ih =>
    rw [List.cons_append, numberTail, List.length_cons]
    have := @ih c
    split <;> omega

theorem throughSlash_line {inClass : Bool} {n : Nat} (hlast : cs.getLast? ≠ some '\\')
    (h : throughSlash inClass (cs ++ '\n' :: more) = some n) : n ≤ cs.length := by
  fun_induction throughSlash inClass cs generalizing n with
  | case1 => simp [throughSlash] at h
  | case2 => exact absurd rfl hlast
  | case3 inClass d cs ih =>
    simp only [List.cons_append, throughSlash, Option.map_eq_some_iff] at h
    obtain ⟨m, hm, rfl⟩ := h
    have hm := ih (fun hcs => hlast (by simp [List.getLast?_cons, hcs])) hm
    simp only [List.length_cons]
    omega
  | case4 => simp [throughSlash] at h
  | case5 inClass c cs hlone hescape hline hclose =>
    rw [List.cons_append, throughSlash_cons (ne_backslash hlone hescape), if_neg hline,
      if_pos hclose] at h
    cases h
    simp
  | case6 =>
    rename_i hlone hescape hline hclose inner ih
    rw [List.cons_append, throughSlash_cons (ne_backslash hlone hescape), if_neg hline,
      if_neg hclose, Option.map_eq_some_iff] at h
    obtain ⟨m, hm, rfl⟩ := h
    have hm := ih (fun hcs => hlast (by simp [List.getLast?_cons, hcs])) hm
    simp only [List.length_cons]
    omega

theorem regexTail_line {n : Nat} (hlast : cs.getLast? ≠ some '\\')
    (h : regexTail? (cs ++ '\n' :: more) = some n) : n ≤ cs.length := by
  obtain ⟨m, hm, rfl⟩ := Option.map_eq_some_iff.mp h
  have hle := throughSlash_line hlast hm
  have hflags : (((cs.drop m) ++ '\n' :: more).takeWhile isAsciiLetter).length ≤
      (cs.drop m).length := takeWhile_stop (by decide)
  rw [List.length_drop] at hflags
  rw [List.drop_append_of_le_length hle]
  omega

theorem markLength_stop {c stop : Char} (hstop : stop ≠ '.') {n : Nat}
    (h : markLength? (c :: (cs ++ stop :: more)) = some n) : n ≤ cs.length + 1 := by
  unfold markLength? at h
  split at h
  · next heq =>
    cases h
    match cs, heq with
    | [], heq => exact absurd (List.cons.inj (List.cons.inj heq).2).1 hstop
    | [_], heq => exact absurd (List.cons.inj (List.cons.inj (List.cons.inj heq).2).2).1 hstop
    | _ :: _ :: _, _ => simp
  · next heq =>
    split at h
    · cases h
    · cases h
      cases cs with
      | nil => exact absurd (List.cons.inj (List.cons.inj heq).2).1 hstop
      | cons d cs => simp
  · split at h
    · cases h
      omega
    · cases h
  · cases h

theorem lineFeed_notMem_operators : ∀ op ∈ operators, '\n' ∉ op.toList := by decide

theorem operatorLength_line {n : Nat} (h : operatorLength? (cs ++ '\n' :: more) = some n) :
    n ≤ cs.length := by
  obtain ⟨op, hop, rfl⟩ := Option.map_eq_some_iff.mp h
  have hbegins := List.isPrefixOf_iff_prefix.mp (List.find?_some hop :)
  have hfeed := lineFeed_notMem_operators op (List.mem_of_find?_eq_some hop)
  -- A longer operator would have the line feed as a character.
  apply Nat.le_of_not_lt
  intro hlt
  rw [← String.length_toList] at hlt
  obtain ⟨after, hafter⟩ := hbegins
  have hget : (op.toList ++ after)[cs.length]? = some '\n' := by
    rw [hafter, List.getElem?_append_right (Nat.le_refl _), Nat.sub_self]
    rfl
  rw [List.getElem?_append_left hlt] at hget
  exact hfeed (List.mem_of_getElem? hget)

theorem head?_stop_ne {ch stop : Char} (h : cs.head? ≠ some ch) (hch : ch ≠ stop) :
    (cs ++ stop :: more).head? ≠ some ch := by
  cases cs with
  | nil => simpa using hch.symm
  | cons d cs => exact h

theorem afterSlash_line {regexMayStart : Bool} (hclosed : isClosed '/' cs = true)
    (hlast : cs.getLast? ≠ some '\\') :
    (afterSlash regexMayStart (cs ++ '\n' :: more)).length ≤ cs.length + 1 := by
  by_cases hblock : cs.head? = some '*'
  · obtain ⟨rest, rfl⟩ := List.head?_eq_some_iff.mp hblock
    have hle : throughCommentEnd (rest ++ '\n' :: more) ≤ rest.length :=
      throughCommentEnd_le hclosed
    rw [List.cons_append, afterSlash, length, List.length_cons]
    omega
  by_cases hline : cs.head? = some '/'
  · obtain ⟨rest, rfl⟩ := List.head?_eq_some_iff.mp hline
    have hle : (('/' :: rest ++ '\n' :: more).takeWhile (· != '\n')).length ≤
        ('/' :: rest).length := takeWhile_stop (by decide)
    rw [List.cons_append] at hle ⊢
    rw [afterSlash, length, lineLength]
    omega
  rw [afterSlash_eq (head?_stop_ne hline (by decide)) (head?_stop_ne hblock (by decide))]
  split
  · next n hn =>
    split at hn
    · have := regexTail_line hlast hn
      simp only [length]
      omega
    · cases hn
  · simp only [length]
    split
    · next hequals =>
      cases cs with
      | nil => cases hequals
      | cons d cs => simp
    · omega

/-- A character that no name and no number has, and no mark in its middle, is passed only where a
slash or a quote begins, or within an operator. -/
theorem length_head_stop {regexMayStart : Bool} {c stop : Char} {n : Nat}
    (hname : isNamePart stop = false) (hnumber : isNumberPart stop = false)
    (hsign : stop ≠ '+' ∧ stop ≠ '-') (hdot : stop ≠ '.') (hn : cs.length + 1 ≤ n)
    (hslash : c = '/' → (afterSlash regexMayStart (cs ++ stop :: more)).length ≤ n)
    (hquote : c = '"' ∨ c = '\'' → 1 + throughQuote c (cs ++ stop :: more) ≤ n)
    (hoperator : ∀ k, operatorLength? (c :: (cs ++ stop :: more)) = some k → k ≤ n) :
    (head regexMayStart c (cs ++ stop :: more)).length ≤ n := by
  have hone : 1 ≤ n := Nat.le_trans (Nat.le_add_left 1 _) hn
  generalize hl : head regexMayStart c (cs ++ stop :: more) = l
  cases IsHead.of_head hl with
  | gap | backquote | stray => exact hone
  | slash hc h => exact h ▸ hslash hc
  | quoted hc => exact hquote hc
  | name =>
    have : ((cs ++ stop :: more).takeWhile isNamePart).length ≤ cs.length := takeWhile_stop hname
    simp only [length]
    omega
  | number =>
    have := @numberTail_stop cs more (hasBasePrefix (c :: (cs ++ stop :: more))) c stop hnumber
      hsign
    simp only [length]
    omega
  | mark _ h => exact Nat.le_trans (markLength_stop hdot h) hn
  | operator _ h => exact hoperator _ h

/-- What is closed at the head of a text does not reach past a line feed after the text. -/
theorem length_head_line {regexMayStart : Bool} {c : Char} (hclosed : isClosed c cs = true)
    (hlast : cs.getLast? ≠ some '\\') :
    (head regexMayStart c (cs ++ '\n' :: more)).length ≤ cs.length + 1 := by
  apply length_head_stop (by decide +kernel) (by decide) (by decide) (by decide) (Nat.le_refl _)
  · rintro rfl
    exact afterSlash_line hclosed hlast
  · intro hquote
    have hcloses : closesQuote c cs = true := by rcases hquote with rfl | rfl <;> exact hclosed
    have hle : throughQuote c (cs ++ '\n' :: more) ≤ cs.length := throughQuote_le hcloses
    omega
  · intro n hn
    rw [← List.cons_append] at hn
    exact operatorLength_line hn

/-- The same lexeme stands at the head of a text whether or not another line follows. -/
theorem head_line {regexMayStart : Bool} {c : Char} (hclosed : isClosed c cs = true)
    (hlast : cs.getLast? ≠ some '\\') :
    head regexMayStart c (cs ++ '\n' :: more) = head regexMayStart c cs :=
  head_cut (length_head_line hclosed hlast) (fun _ _ => rfl)

/-- Only a regular expression depends on what stands before it. -/
theorem head_eq_of_not_regex {c : Char} (h : ∀ n, head true c cs ≠ .token .regex n)
    (regexMayStart : Bool) : head regexMayStart c cs = head true c cs := by
  cases regexMayStart with
  | true => rfl
  | false =>
    unfold head at h ⊢
    by_cases hgap : isGap c = true
    · rw [if_pos hgap, if_pos hgap]
    rw [if_neg hgap, if_neg hgap]
    by_cases hslash : c = '/'
    · rw [if_pos hslash, if_pos hslash]
      simp only [if_neg hgap, if_pos hslash] at h
      unfold afterSlash at h ⊢
      split
      · rfl
      · rfl
      · next hline hblock =>
        split at h
        · exact absurd rfl (hline _)
        · exact absurd rfl (hblock _)
        split at h
        · exact absurd rfl (h _)
        · rfl
    · rw [if_neg hslash, if_neg hslash]

end Lexeme

namespace Scan

open Token

/-- The code from `c` on, after the token `previous`, is read to the end of the text without a
string literal, template literal or block comment that is still open there. -/
inductive Settled : Option Token → Cursor → Prop
  | done {previous : Option Token} {c : Cursor} (hc : c.rest = []) : Settled previous c
  | gap {previous : Option Token} {c : Cursor} {ch : Char} {cs : List Char} {n : Nat}
      (hc : c.rest = ch :: cs) (hhead : headAfter previous ch cs = .gap n)
      (hclosed : Lexeme.isClosed ch cs = true) (next : Settled previous (c.advance n)) :
      Settled previous c
  | token {previous : Option Token} {c : Cursor} {ch : Char} {cs : List Char} {kind : Kind}
      {n : Nat} (hc : c.rest = ch :: cs) (hhead : headAfter previous ch cs = .token kind n)
      (hclosed : Lexeme.isClosed ch cs = true)
      (next : Settled (some (tokenBetween kind c (c.advance n))) (c.advance n)) :
      Settled previous c
  | literal {previous : Option Token} {c last : Cursor} {ch : Char} {cs : List Char}
      {groups : List (List Token)} (hc : c.rest = ch :: cs)
      (hhead : headAfter previous ch cs = .backquote)
      (body : Template (c.advance 1) groups last true)
      (next : Settled (some (literalBetween c last groups)) last) : Settled previous c

section Line

variable {previous : Option Token} {c stop : Cursor} {ch : Char} {cs more : List Char}
  {kind : Kind} {n : Nat} {ts : List Token} {groups : List (List Token)}

/-- What is closed stands at the head in the same way when another line follows. -/
theorem headAfter_line {lexeme : Lexeme} (hc : c.rest = ch :: cs)
    (hhead : headAfter previous ch cs = lexeme) (hclosed : Lexeme.isClosed ch cs = true)
    (hlast : c.rest.getLast? ≠ some '\\') :
    headAfter previous ch (cs ++ '\n' :: more) = lexeme := by
  rw [← hhead]
  exact Lexeme.head_line hclosed fun h => hlast (by simp [hc, List.getLast?_cons, h])

theorem length_le_of_isClosed {lexeme : Lexeme} (hc : c.rest = ch :: cs)
    (hhead : headAfter previous ch cs = lexeme) (hclosed : Lexeme.isClosed ch cs = true)
    (hlast : c.rest.getLast? ≠ some '\\') : lexeme.length ≤ c.rest.length := by
  have hline : headAfter previous ch (cs ++ ['\n']) = lexeme :=
    headAfter_line hc hhead hclosed hlast
  rw [← hline, hc]
  exact Lexeme.length_head_line hclosed fun h => hlast (by simp [hc, List.getLast?_cons, h])

theorem followedBy_rest (hc : c.rest = ch :: cs) :
    (c.followedBy more).rest = ch :: (cs ++ more) := by
  rw [Cursor.followedBy, hc, List.cons_append]

theorem tokenBetween_followedBy (h : n ≤ c.rest.length) :
    tokenBetween kind (c.followedBy more) ((c.followedBy more).advance n) =
      tokenBetween kind c (c.advance n) := by
  rw [Cursor.followedBy_advance h, tokenBetween, Cursor.slice_followedBy (.advance c n)]
  rfl

theorem literalBetween_followedBy (h : c.Reaches stop) :
    literalBetween (c.followedBy more) (stop.followedBy more) groups =
      literalBetween c stop groups := by
  rw [literalBetween, Cursor.slice_followedBy h]
  rfl

/-- What stops before the end of the text is closed. -/
theorem isClosed_of_advance {lexeme : Lexeme} (hc : c.rest = ch :: cs)
    (hhead : headAfter previous ch cs = lexeme)
    (hrest : 0 < (c.advance lexeme.length).rest.length) : Lexeme.isClosed ch cs = true := by
  rw [← Bool.not_eq_false]
  intro hopen
  rw [← hhead, headAfter, Lexeme.length_head_of_not_isClosed hopen, Cursor.advance_rest_length,
    hc, List.length_cons] at hrest
  omega

end Line

theorem Template.rest_pos {c stop : Cursor} {groups : List (List Token)}
    (reading : Template c groups stop true) : 0 < c.rest.length := by
  cases reading with
  | escape hc _ => simp [hc]
  | closed hc => simp [hc]
  | interpolation hc _ _ => simp [hc]
  | text hc _ _ _ _ => simp [hc]

/-- A text that does not end in a backslash, and the same text with a line feed and more after it. -/
theorem line_simulation (more : List Char) :
    Simulation id 1 fun c d =>
      c.rest.getLast? ≠ some '\\' ∧ d = c.followedBy ('\n' :: more) where
  position_eq h := by
    rw [h.2]
    rfl
  advance h hn := ⟨(Cursor.Reaches.advance _ _).getLast?_ne h.1, by
    rw [h.2, Cursor.followedBy_advance (Cursor.le_of_advance_pos hn)]⟩
  take_eq h hn := by
    rw [h.2]
    exact List.take_append_of_le_length (Cursor.le_of_advance_pos hn)
  slice_eq h hlast hc _ := by rw [h.2, hlast.2, Cursor.slice_followedBy hc]
  done h hleft hc := by
    rw [hc] at hleft
    exact absurd hleft (Nat.not_succ_le_zero 0)
  headAfter_eq h hc hn := ⟨_, h.2 ▸ followedBy_rest hc,
    headAfter_line hc rfl (isClosed_of_advance hc rfl hn) h.1⟩
  opens {c d ch cs ds} h hc hd _ hopen := by
    have hd' : (c.followedBy ('\n' :: more)).rest = ch :: (cs ++ '\n' :: more) :=
      followedBy_rest hc
    rw [← h.2, hd] at hd'
    rw [(List.cons.inj hd').2] at hopen
    by_contra hcs
    exact Lexeme.head?_stop_ne hcs (by decide) hopen

/-- Code that ends before the text does is read in the same way when another line follows. -/
theorem Code.line {nesting : Nesting} {previous : Option Token} {c stop : Cursor}
    {ts : List Token} (reading : Code nesting previous c ts stop) (more : List Char)
    (hlast : c.rest.getLast? ≠ some '\\') (hstop : 0 < stop.rest.length) :
    Code nesting previous (c.followedBy ('\n' :: more)) ts (stop.followedBy ('\n' :: more)) := by
  obtain ⟨last, hcode, _, rfl⟩ := reading.simulated_id (line_simulation more) ⟨hlast, rfl⟩ hstop
  exact hcode

/-- So is a template literal that is closed, even where the text ends with it. -/
theorem Template.line {c stop : Cursor} {groups : List (List Token)} {isClosed : Bool}
    (reading : Template c groups stop isClosed) (more : List Char)
    (hlast : c.rest.getLast? ≠ some '\\') (hclosed : isClosed = true) :
    Template (c.followedBy ('\n' :: more)) groups (stop.followedBy ('\n' :: more)) isClosed := by
  have further (n : Nat) := (Cursor.Reaches.advance c n).getLast?_ne hlast
  match reading with
  | .unclosed _ => cases hclosed
  | .escape hc next =>
    refine .escape (followedBy_rest hc) ?_
    have hrest := (hclosed ▸ next).rest_pos
    rw [Cursor.followedBy_advance (Cursor.le_of_advance_pos hrest)]
    exact next.line more (further _) hclosed
  | .closed hc =>
    rw [← Cursor.followedBy_advance (by rw [hc]; exact Nat.succ_pos _)]
    exact .closed (followedBy_rest hc)
  | .interpolation hc code next =>
    have hstop := (hclosed ▸ next).rest_pos
    have hrest := Nat.lt_of_lt_of_le hstop code.reaches.rest_length_le
    have hcode := code.line more (further _) hstop
    rw [← Cursor.followedBy_advance (Cursor.le_of_advance_pos hrest)] at hcode
    exact .interpolation (followedBy_rest hc) hcode
      (next.line more ((Cursor.Reaches.of_advance code.reaches).getLast?_ne hlast) hclosed)
  | .text hc hescape hquote hopen next =>
    have hrest := (hclosed ▸ next).rest_pos
    refine .text (followedBy_rest hc) hescape hquote ?_ ?_
    · exact fun hdollar => Lexeme.head?_stop_ne (hopen hdollar) (by decide)
    · rw [Cursor.followedBy_advance (Cursor.le_of_advance_pos hrest)]
      exact next.line more (further _) hclosed

/-- Code that settles, and code read from the line after it. -/
theorem Settled.exists_code {previous : Option Token} {c : Cursor} (h : Settled previous c)
    (hlast : c.rest.getLast? ≠ some '\\') (more : List Char) :
    ∃ ts last, last.rest = [] ∧ Code .outside previous c ts last ∧ ∀ {us stop},
      Code .outside (ts.getLast?.or previous) (last.followedBy ('\n' :: more)) us stop →
        Code .outside previous (c.followedBy ('\n' :: more)) (ts ++ us) stop := by
  induction h with
  | done hc => exact ⟨[], _, hc, .done hc, id⟩
  | @gap previous c ch cs n hc hhead hclosed next ih =>
    obtain ⟨ts, last, hrest, code, join⟩ := ih ((Cursor.Reaches.advance c n).getLast?_ne hlast)
    have hn : n ≤ c.rest.length := length_le_of_isClosed hc hhead hclosed hlast
    refine ⟨ts, last, hrest, .gap hc hhead code, fun after => ?_⟩
    refine .gap (followedBy_rest hc) (headAfter_line hc hhead hclosed hlast) ?_
    rw [Cursor.followedBy_advance hn]
    exact join after
  | @token previous c ch cs kind n hc hhead hclosed next ih =>
    obtain ⟨ts, last, hrest, code, join⟩ := ih ((Cursor.Reaches.advance c n).getLast?_ne hlast)
    have hn : n ≤ c.rest.length := length_le_of_isClosed hc hhead hclosed hlast
    refine ⟨_ :: ts, last, hrest, .token hc hhead rfl code, fun after => ?_⟩
    rw [getLast?_cons_or] at after
    rw [List.cons_append, ← tokenBetween_followedBy hn]
    refine .token (followedBy_rest hc) (headAfter_line hc hhead hclosed hlast) rfl ?_
    rw [tokenBetween_followedBy hn, Cursor.followedBy_advance hn]
    exact join after
  | @literal previous c mid ch cs groups hc hhead body next ih =>
    have hmid := Cursor.Reaches.of_advance body.reaches
    have hn : 1 ≤ c.rest.length := by rw [hc]; exact Nat.succ_pos _
    obtain rfl := Lexeme.eq_of_head_eq_backquote hhead
    obtain ⟨ts, last, hrest, code, join⟩ := ih (hmid.getLast?_ne hlast)
    have hbody := body.line more ((Cursor.Reaches.advance c 1).getLast?_ne hlast) rfl
    rw [← Cursor.followedBy_advance hn] at hbody
    refine ⟨_ :: ts, last, hrest, .literal hc hhead body code, fun after => ?_⟩
    rw [getLast?_cons_or] at after
    rw [List.cons_append, ← literalBetween_followedBy hmid]
    refine .literal (followedBy_rest hc) rfl hbody ?_
    rw [literalBetween_followedBy hmid]
    exact join after

theorem headAfter_eq_of_not_regex (previous : Option Token) {first : Option Token} {ch : Char}
    {cs : List Char} (hfirst : first.all mayPrecedeRegex = true)
    (h : previous.all mayPrecedeRegex = true ∨ ∀ n, headAfter first ch cs ≠ .token .regex n) :
    headAfter previous ch cs = headAfter first ch cs := by
  rw [headAfter, headAfter, hfirst]
  rcases h with h | h
  · rw [h]
  · rw [headAfter, hfirst] at h
    exact Lexeme.head_eq_of_not_regex h _

/-- Code is read in the same way after another token, unless it begins with a regular expression
that could not stand there. -/
theorem Code.after {nesting : Nesting} {first previous : Option Token} {c stop : Cursor}
    {ts : List Token} : Code nesting first c ts stop → nesting = .outside →
      first.all mayPrecedeRegex = true →
      (previous.all mayPrecedeRegex = true ∨ ts.head?.all (!·.hasKind .regex) = true) →
      Code nesting previous c ts stop
  | .done hc, _, _, _ => .done hc
  | .gap hc hhead next, hnesting, hfirst, h => by
    have heq := headAfter_eq_of_not_regex previous hfirst (.inr (by rw [hhead]; exact nofun))
    exact .gap hc (heq.trans hhead) (next.after hnesting hfirst h)
  | .closing _ _ hnest, hnesting, _, _ => by
    subst hnesting
    cases hnest
  | .token hc hhead hnest next, _, hfirst, h => by
    have heq := headAfter_eq_of_not_regex previous hfirst (h.imp_right fun hkind n hregex => by
      rw [hhead] at hregex
      cases hregex
      cases hkind)
    exact .token hc (heq.trans hhead) hnest next
  | .literal hc hhead body next, _, hfirst, _ => by
    have heq := headAfter_eq_of_not_regex previous hfirst (.inr (by rw [hhead]; exact nofun))
    exact .literal hc (heq.trans hhead) body next

/-- What follows a text and a line feed begins a line of its own. -/
theorem matches_lineFeed {last : Cursor} (hrest : last.rest = []) {text more : List Char}
    (hposition : last.position = Position.start.after text) :
    (Cursor.ofList more).Matches (Position.down (1 + text.count '\n')) []
      ((last.followedBy ('\n' :: more)).advance 1) where
  rest_eq := by
    rw [Cursor.advance_rest, Cursor.followedBy, hrest, List.append_nil]
    rfl
  position_after text' := by
    have hnext : ((last.followedBy ('\n' :: more)).advance 1).position =
        Position.start.down (1 + text.count '\n') := by
      rw [Cursor.advance_position, Cursor.followedBy, hrest, hposition,
        ← Position.start_after_lineFeed]
      rfl
    rw [hnext, Position.down_after, Cursor.ofList]
  uncut _ := rfl

theorem isPrefix_line {text more : List Char} (h : ['#', '!'] <+: text ++ '\n' :: more) :
    ['#', '!'] <+: text := by
  obtain ⟨rest, hrest⟩ := h
  match text, hrest with
  | [], hrest => cases hrest
  | [_], hrest => cases hrest
  | _ :: _ :: cs, hrest =>
    cases hrest
    exact List.prefix_append ['#', '!'] cs

theorem codeStart_followedBy (text more : List Char) :
    codeStart (text ++ '\n' :: more) = (codeStart text).followedBy ('\n' :: more) := by
  by_cases h : ['#', '!'] <+: text
  · have hline : Lexeme.lineLength (text ++ '\n' :: more) = Lexeme.lineLength text := by
      rw [Lexeme.lineLength, Lexeme.takeWhile_cut (Lexeme.takeWhile_stop (by decide)),
        Lexeme.lineLength]
    rw [codeStart_of_interpreter h, codeStart_of_interpreter (h.trans (List.prefix_append _ _)),
      hline]
    have hle : Lexeme.lineLength text ≤ (Cursor.ofList text).rest.length :=
      (List.takeWhile_sublist _).length_le
    exact Cursor.followedBy_advance hle
  · rw [codeStart_of_not_interpreter h, codeStart_of_not_interpreter (mt isPrefix_line h)]
    rfl

end Scan

/-- Lines that leave nothing open are scanned apart from those that follow them: the tokens of
both, one after the other, with the later ones as many lines further down. -/
theorem tokenize_lineFeed (a b : String) (ha : Scan.Settled none (Scan.codeStart a.toList))
    (hbackslash : a.toList.getLast? ≠ some '\\') (hinterpreter : ¬ ['#', '!'] <+: b.toList)
    (hregex : (tokenize a).getLast?.all Token.mayPrecedeRegex = true ∨
      (tokenize b).head?.all (!·.hasKind .regex) = true) :
    tokenize (a ++ "\n" ++ b) =
      tokenize a ++ (tokenize b).map (Token.move (Position.down (1 + a.toList.count '\n'))) := by
  have hin := Scan.codeStart_isIn a.toList
  have hlast : (Scan.codeStart a.toList).rest.getLast? ≠ some '\\' := by
    rw [hin.rest_eq, List.getLast?_drop]
    split
    · exact Option.some_ne_none _ |>.symm
    · exact hbackslash
  obtain ⟨ts, last, hrest, code, join⟩ := ha.exists_code hlast b.toList
  have hend := hin.reaches code.reaches
  have hposition : last.position = Position.start.after a.toList := by
    rw [hend.position_eq, hend.offset_eq_length hrest, List.take_length]
  rw [code.tokenize_eq] at hregex ⊢
  -- The lines that follow are read after the last token of `a`, at their place in the whole.
  obtain ⟨stop, reading⟩ := tokenize_reads b
  rw [Scan.codeStart_of_not_interpreter hinterpreter] at reading
  obtain ⟨_, moved, _⟩ := (reading.after rfl rfl hregex).moved
    (Scan.matches_lineFeed hrest hposition) (Nat.zero_le _) rfl
  have hfeed : (last.followedBy ('\n' :: b.toList)).rest = '\n' :: b.toList := by
    rw [Cursor.followedBy, hrest, List.nil_append]
  simp only [Option.or_none] at join
  have whole := join (.gap hfeed rfl moved)
  rw [← Scan.codeStart_followedBy] at whole
  have htext : (a ++ "\n" ++ b).toList = a.toList ++ '\n' :: b.toList := by simp
  rw [← htext] at whole
  exact whole.tokenize_eq

/-- The slash after the semicolon opens a regular expression, on a line of its own. -/
theorem tokenize_lineFeed_literals :
    Scan.Settled none (Scan.codeStart "x=\x60$\x7b'y'\x7d\x60;".toList) ∧
      tokenize ("x=\x60$\x7b'y'\x7d\x60;" ++ "\n" ++ "/z/ + \x60$\x7bw\x7d\x60") =
        tokenize "x=\x60$\x7b'y'\x7d\x60;" ++
          [.plain .regex ⟨2, 1⟩ "/z/", .plain .operator ⟨2, 5⟩ "+",
            .template ⟨2, 7⟩ "\x60$\x7bw\x7d\x60" [.plain .identifier ⟨2, 10⟩ "w"]] := by
  have hsettled : Scan.Settled none (Scan.codeStart "x=\x60$\x7b'y'\x7d\x60;".toList) := by
    rw [Scan.codeStart_of_not_interpreter (by decide)]
    refine .token rfl rfl rfl (.token rfl rfl rfl ?_)
    refine .literal rfl rfl (.interpolation rfl
      (.token rfl rfl rfl (.closing rfl rfl rfl)) (.closed rfl)) ?_
    exact .token rfl rfl rfl (.done rfl)
  have htokens : tokenize "/z/ + \x60$\x7bw\x7d\x60" =
      [.plain .regex ⟨1, 1⟩ "/z/", .plain .operator ⟨1, 5⟩ "+",
        .template ⟨1, 7⟩ "\x60$\x7bw\x7d\x60" [.plain .identifier ⟨1, 10⟩ "w"]] := rfl
  have hjoined := tokenize_lineFeed _ "/z/ + \x60$\x7bw\x7d\x60" hsettled (by decide) (by decide)
    (.inl rfl)
  rw [htokens] at hjoined
  exact ⟨hsettled, hjoined⟩

end SymbolAtlas
