import SymbolAtlas.Proofs.Token.Reading

/-! # Text written token by token

A text put together from tokens, with blanks after some of them, is scanned back into these tokens
if the scanner reads each of them off the head of what it is followed by. Here this is shown of
names in ASCII, separators, the star and quoted texts; which of them need a blank after them is
all that depends on what follows.
-/

namespace SymbolAtlas

open Identifier

/-- A token as it is written: its category, its text and the blanks after it. -/
structure Written where
  kind : Token.Kind
  text : String
  blanks : List Char

namespace Written

def chars (w : Written) : List Char := w.text.toList ++ w.blanks

def textOf (ws : List Written) : List Char := ws.flatMap chars

/-- The tokens that are written, the first of them at `p`. -/
def tokensFrom (p : Position) : List Written → List Token
  | [] => []
  | w :: ws => .plain w.kind p w.text :: tokensFrom (p.after w.chars) ws

@[simp] theorem textOf_nil : textOf [] = [] := rfl

@[simp] theorem textOf_cons (w : Written) (ws : List Written) :
    textOf (w :: ws) = w.text.toList ++ (w.blanks ++ textOf ws) := by
  simp [textOf, chars]

@[simp] theorem textOf_append (ws vs : List Written) :
    textOf (ws ++ vs) = textOf ws ++ textOf vs := by
  simp [textOf]

theorem tokensFrom_append (p : Position) (ws vs : List Written) :
    tokensFrom p (ws ++ vs) = tokensFrom p ws ++ tokensFrom (p.after (textOf ws)) vs := by
  induction ws generalizing p with
  | nil => rfl
  | cons w ws ih =>
    simp only [List.cons_append, tokensFrom, ih, textOf_cons, chars, Position.after_append]

/-- The tokens have the categories and texts that are written. -/
theorem exists_of_mem_tokensFrom {t : Token} {p : Position} {ws : List Written}
    (h : t ∈ tokensFrom p ws) : ∃ w ∈ ws, ∃ q, t = .plain w.kind q w.text := by
  induction ws generalizing p with
  | nil => cases h
  | cons w ws ih =>
    rcases List.mem_cons.mp h with rfl | h
    · exact ⟨w, List.mem_cons_self, p, rfl⟩
    · obtain ⟨v, hv, ht⟩ := ih h
      exact ⟨v, List.mem_cons_of_mem w hv, ht⟩

/-- The scanner reads the token off a text that goes on with `rest`. -/
structure Legible (w : Written) (rest : List Char) : Prop where
  head : ∃ ch cs, w.text.toList = ch :: cs ∧ ∀ regexMayStart,
    Lexeme.head regexMayStart ch (cs ++ (w.blanks ++ rest)) = .token w.kind (cs.length + 1)
  blank : w.blanks.all Lexeme.isGap = true

/-- The scanner reads each of the tokens off what it is followed by. -/
def AllLegible : List Written → Prop
  | [] => True
  | w :: ws => w.Legible (textOf ws) ∧ AllLegible ws

end Written

namespace Scan

open Written

theorem headAfter_blank {c : Char} (hc : Lexeme.isGap c = true) (previous : Option Token)
    (cs : List Char) : headAfter previous c cs = .gap 1 := by
  simp only [headAfter, Lexeme.head, hc, if_true]

theorem Code.blanks {nesting : Nesting} {previous : Option Token} {c stop : Cursor}
    {ts : List Token} {blanks rest : List Char} (hblanks : blanks.all Lexeme.isGap = true)
    (hc : c.rest = blanks ++ rest)
    (next : Code nesting previous (c.advance blanks.length) ts stop) :
    Code nesting previous c ts stop := by
  induction blanks generalizing c with
  | nil => exact next
  | cons b blanks ih =>
    rw [List.all_cons, Bool.and_eq_true] at hblanks
    refine .gap hc (headAfter_blank hblanks.1 previous _) ?_
    apply ih hblanks.2
    · rw [Cursor.advance_rest, hc]
      rfl
    · rw [Cursor.advance_advance, Nat.add_comm]
      exact next

/-- Legible text is read as the tokens that are written. -/
theorem code_of_allLegible {previous : Option Token} {c : Cursor} {ws : List Written}
    (hws : AllLegible ws) (hc : c.rest = textOf ws) :
    ∃ stop, Code .outside previous c (tokensFrom c.position ws) stop := by
  induction ws generalizing previous c with
  | nil => exact ⟨c, .done hc⟩
  | cons w ws ih =>
    -- The scanner steps over the text of `w`, then over its blanks, to where the rest begins.
    obtain ⟨⟨⟨ch, cs, htext, hhead⟩, hblank⟩, hrest⟩ := hws
    rw [textOf_cons] at hc
    have hstep : (c.advance w.text.toList.length).rest = w.blanks ++ textOf ws := by
      rw [Cursor.advance_rest, hc, List.drop_left]
    have hlast : ((c.advance w.text.toList.length).advance w.blanks.length).rest = textOf ws := by
      rw [Cursor.advance_rest, hstep, List.drop_left]
    have hposition : ((c.advance w.text.toList.length).advance w.blanks.length).position =
        c.position.after w.chars := by
      rw [Cursor.advance_position, Cursor.advance_position, hstep, hc, List.take_left,
        List.take_left, chars, Position.after_append]
    have htoken : tokenBetween w.kind c (c.advance w.text.toList.length) =
        .plain w.kind c.position w.text := by
      rw [tokenBetween, Cursor.slice_advance, hc, List.take_left, String.ofList_toList]
    obtain ⟨stop, reading⟩ :=
      @ih (some (.plain w.kind c.position w.text)) _ hrest hlast
    rw [hposition] at reading
    refine ⟨stop, ?_⟩
    rw [tokensFrom, ← htoken] at *
    have hc' : c.rest = ch :: (cs ++ (w.blanks ++ textOf ws)) := by
      rw [hc, htext, List.cons_append]
    rw [htext, List.length_cons] at *
    exact .token hc' (hhead _) rfl (.blanks hblank hstep reading)

end Scan

/-- Legible text without an interpreter line is tokenized as it is written. -/
theorem tokenize_written {ws : List Written} (hws : Written.AllLegible ws)
    (hstart : ['#', '!'].isPrefixOf (Written.textOf ws) = false) :
    tokenize (String.ofList (Written.textOf ws)) = Written.tokensFrom .start ws := by
  have hcursor : Scan.codeStart (String.ofList (Written.textOf ws)).toList =
      Cursor.ofList (Written.textOf ws) := by
    rw [String.toList_ofList, Scan.codeStart, hstart]
    rfl
  obtain ⟨stop, reading⟩ := @Scan.code_of_allLegible none (.ofList (Written.textOf ws)) ws hws rfl
  rw [← hcursor] at reading
  have hposition :
      (Scan.codeStart (String.ofList (Written.textOf ws)).toList).position = .start := by
    rw [hcursor]
    rfl
  rw [hposition] at reading
  exact reading.tokenize_eq

/-! ## What is legible -/

/-- An ASCII character that may begin a name. -/
def isAsciiNameStart (c : Char) : Bool := isAsciiWordStart c || c == '$'

def isAsciiNamePart (c : Char) : Bool := isAsciiWord c || c == '$'

def isAsciiName (s : String) : Bool :=
  match s.toList with
  | [] => false
  | c :: cs => isAsciiNameStart c && cs.all isAsciiNamePart

theorem isAsciiName_cons {s : String} (h : isAsciiName s = true) :
    ∃ c cs, s.toList = c :: cs ∧ isAsciiNameStart c = true ∧
      ∀ d ∈ cs, isAsciiNamePart d = true := by
  unfold isAsciiName at h
  cases hs : s.toList with
  | nil =>
    rw [hs] at h
    cases h
  | cons c cs =>
    rw [hs] at h
    simp only [Bool.and_eq_true, List.all_eq_true] at h
    exact ⟨c, cs, rfl, h.1, h.2⟩

theorem utf16Width_of_ascii {c : Char} (h : c.toNat < 0x80) : utf16Width c = 1 := by
  unfold utf16Width
  rw [if_pos]
  exact UInt32.lt_iff_toNat_lt.mpr (Nat.lt_trans h (by decide))

theorem toNat_of_isAsciiNamePart {c : Char} (h : isAsciiNamePart c = true) : c.toNat < 0x80 := by
  simp only [isAsciiNamePart, isAsciiWord, isAsciiLetter, isAsciiDigit, Bool.or_eq_true,
    Bool.and_eq_true, decide_eq_true_eq, beq_iff_eq, Char.le_def, UInt32.le_iff_toNat_le] at h
  rcases h with (((h | h) | h) | rfl) | rfl
  · exact Nat.lt_of_le_of_lt h.2 (by decide)
  · exact Nat.lt_of_le_of_lt h.2 (by decide)
  · exact Nat.lt_of_le_of_lt h.2 (by decide)
  · decide
  · decide

theorem isAsciiNamePart_of_start {c : Char} (h : isAsciiNameStart c = true) :
    isAsciiNamePart c = true := by
  simp only [isAsciiNameStart, isAsciiWordStart, isAsciiNamePart, isAsciiWord,
    Bool.or_eq_true] at h ⊢
  rcases h with (h | h) | h
  · exact .inl (.inl (.inl h))
  · exact .inl (.inr h)
  · exact .inr h

theorem isNamePart_of_ascii {c : Char} (h : isAsciiNamePart c = true) :
    Lexeme.isNamePart c = true := by
  have hascii := toNat_of_isAsciiNamePart h
  simp only [isAsciiNamePart, Bool.or_eq_true] at h
  simp only [Lexeme.isNamePart, utf16Width_of_ascii hascii, isIdContinue, if_pos hascii]
  rcases h with h | h <;> simp [h]

theorem isNameStart_of_ascii {c : Char} (h : isAsciiNameStart c = true) :
    Lexeme.isNameStart c = true := by
  have hascii := toNat_of_isAsciiNamePart (isAsciiNamePart_of_start h)
  simp only [isAsciiNameStart, isAsciiWordStart, Bool.or_eq_true] at h
  simp only [Lexeme.isNameStart, utf16Width_of_ascii hascii, isIdStart, if_pos hascii]
  rcases h with (h | h) | h <;> simp [h]

/-- Nothing but a name begins with a letter. -/
theorem head_of_nameStart {c : Char} (h : isAsciiNameStart c = true) (regexMayStart : Bool)
    (cs : List Char) :
    Lexeme.head regexMayStart c cs =
      .token (Lexeme.nameKind (c :: cs.takeWhile Lexeme.isNamePart))
        (1 + (cs.takeWhile Lexeme.isNamePart).length) := by
  have hne {d : Char} (hd : isAsciiNameStart d = false) : c ≠ d := by
    rintro rfl
    rw [h] at hd
    cases hd
  have hgap : Lexeme.isGap c = false := by
    simp only [Lexeme.isGap, Bool.or_eq_false_iff, beq_eq_false_iff_ne]
    refine ⟨⟨⟨⟨⟨⟨⟨?_, ?_⟩, ?_⟩, ?_⟩, ?_⟩, ?_⟩, ?_⟩, ?_⟩ <;> exact hne (by decide)
  have hquote : ¬ (c = '"' || c = '\'') = true := by
    simp only [Bool.or_eq_true, decide_eq_true_eq, not_or]
    exact ⟨hne (by decide), hne (by decide)⟩
  have hstart : (Lexeme.isNameStart c || c == '#' && cs.head?.any Lexeme.isNameStart) = true := by
    rw [isNameStart_of_ascii h, Bool.true_or]
  unfold Lexeme.head
  rw [hgap, if_neg Bool.false_ne_true, if_neg (hne (by decide)), if_neg hquote,
    if_neg (hne (by decide)), if_pos hstart]

namespace Written

/-- A name as it is written. -/
def word (s : String) (blanks : List Char) : Written := ⟨Lexeme.nameKind s.toList, s, blanks⟩

def mark (s : String) (blanks : List Char) : Written := ⟨.punctuation, s, blanks⟩

def star : Written := ⟨.operator, "*", [' ']⟩

def quoted (s : String) (blanks : List Char) : Written :=
  ⟨.string, "'" ++ s ++ "'", blanks⟩

def stopsName (cs : List Char) : Bool := cs.head?.all (!Lexeme.isNamePart ·)

theorem takeWhile_of_stopsName {cs rest : List Char}
    (hcs : ∀ c ∈ cs, Lexeme.isNamePart c = true) (hrest : stopsName rest = true) :
    (cs ++ rest).takeWhile Lexeme.isNamePart = cs := by
  rw [List.takeWhile_append_of_pos hcs]
  cases rest with
  | nil => rw [List.takeWhile_nil, List.append_nil]
  | cons r rest =>
    have hr : ¬ Lexeme.isNamePart r = true := by
      simpa [stopsName] using hrest
    rw [List.takeWhile_cons_of_neg hr, List.append_nil]

theorem legible_word {s : String} {blanks rest : List Char} (hs : isAsciiName s = true)
    (hblanks : blanks.all Lexeme.isGap = true) (hrest : stopsName (blanks ++ rest) = true) :
    (word s blanks).Legible rest := by
  obtain ⟨c, cs, htext, hc, hcs⟩ := isAsciiName_cons hs
  refine ⟨⟨c, cs, htext, fun regexMayStart => ?_⟩, hblanks⟩
  have htake := takeWhile_of_stopsName (fun d hd => isNamePart_of_ascii (hcs d hd)) hrest
  rw [word, head_of_nameStart hc, htake, htext, Nat.add_comm]

/-- The characters that are tokens of their own whatever follows them. -/
def loneMarks : List Char := ['\x7b', '\x7d', '[', ']', '(', ')', ',', ';', ':']

theorem head_mark {c : Char} (hc : c ∈ loneMarks) (regexMayStart : Bool) (cs : List Char) :
    Lexeme.head regexMayStart c cs = .token .punctuation 1 := by
  simp only [loneMarks, List.mem_cons, List.not_mem_nil, or_false] at hc
  rcases hc with rfl | rfl | rfl | rfl | rfl | rfl | rfl | rfl | rfl <;> rfl

def isLoneMark (s : String) : Bool := loneMarks.any (s.toList == [·])

theorem isLoneMark_iff {s : String} : isLoneMark s = true ↔ ∃ c ∈ loneMarks, s.toList = [c] := by
  simp only [isLoneMark, List.any_eq_true, beq_iff_eq]

theorem legible_mark {s : String} {blanks : List Char} (rest : List Char)
    (hs : isLoneMark s = true) (hblanks : blanks.all Lexeme.isGap = true) :
    (mark s blanks).Legible rest := by
  obtain ⟨c, hc, htext⟩ := isLoneMark_iff.mp hs
  exact ⟨⟨c, [], htext, fun regexMayStart => head_mark hc regexMayStart _⟩, hblanks⟩

theorem allLegible_mark {s : String} {blanks : List Char} {ws : List Written}
    (hs : isLoneMark s = true) (hblanks : blanks.all Lexeme.isGap = true)
    (hws : AllLegible ws) : AllLegible (mark s blanks :: ws) :=
  ⟨legible_mark _ hs hblanks, hws⟩

theorem legible_star (rest : List Char) : star.Legible rest :=
  ⟨⟨'*', [], rfl, fun _ => rfl⟩, rfl⟩

/-- A quoted text without backslashes ends at its first quote. -/
theorem throughQuote_append {quote : Char} {cs : List Char} (hquote : quote ≠ '\\')
    (hcs : ∀ c ∈ cs, c ≠ quote ∧ c ≠ '\\') (rest : List Char) :
    Lexeme.throughQuote quote (cs ++ quote :: rest) = cs.length + 1 := by
  induction cs with
  | nil => rw [List.nil_append, Lexeme.throughQuote_cons hquote, if_pos rfl, List.length_nil]
  | cons c cs ih =>
    obtain ⟨hne, hescape⟩ := hcs c List.mem_cons_self
    have htail := ih fun d hd => hcs d (List.mem_cons_of_mem c hd)
    rw [List.cons_append, Lexeme.throughQuote_cons hescape, if_neg hne, htail, List.length_cons,
      Nat.add_comm]

theorem legible_quoted {s : String} {blanks : List Char} (rest : List Char)
    (hs : ∀ c ∈ s.toList, c ≠ '\'' ∧ c ≠ '\\')
    (hblanks : blanks.all Lexeme.isGap = true) : (quoted s blanks).Legible rest := by
  have htext : ("'" ++ s ++ "'").toList = '\'' :: (s.toList ++ ['\'']) := by
    simp
  refine ⟨⟨'\'', _, htext, fun regexMayStart => ?_⟩, hblanks⟩
  have hthrough := throughQuote_append (by decide) hs (blanks ++ rest)
  have hhead (cs : List Char) : Lexeme.head regexMayStart '\'' cs =
      .token .string (1 + Lexeme.throughQuote '\'' cs) := rfl
  rw [hhead, List.append_assoc, List.singleton_append, quoted, hthrough, List.length_append,
    List.length_singleton, Nat.add_comm]

end Written

end SymbolAtlas
