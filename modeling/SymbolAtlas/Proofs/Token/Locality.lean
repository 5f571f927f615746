import SymbolAtlas.Proofs.Text.Identifier
import SymbolAtlas.Proofs.Token.Reading

/-! # What a lexeme depends on

The lexeme at the head of a text depends on no character after its end: cut off behind it, the
text begins with the same lexeme. The one exception is a question mark that a dot and a digit
follow, as it would open an optional-chaining mark without the digit.
-/

namespace SymbolAtlas.Lexeme

open Identifier

variable {cs beyond : List Char}

/-! ## Names, comments and numbers -/

theorem takeWhile_cut {p : Char → Bool} (h : ((cs ++ beyond).takeWhile p).length ≤ cs.length) :
    (cs ++ beyond).takeWhile p = cs.takeWhile p := by
  induction cs with
  | nil => exact List.eq_nil_of_length_eq_zero (Nat.le_zero.mp h)
  | cons c cs ih =>
    rw [List.cons_append] at h ⊢
    by_cases hc : p c = true
    · rw [List.takeWhile_cons_of_pos hc] at h ⊢
      rw [List.takeWhile_cons_of_pos hc, ih (Nat.le_of_succ_le_succ h)]
    · rw [List.takeWhile_cons_of_neg hc, List.takeWhile_cons_of_neg hc]

theorem throughCommentEnd_cut (h : throughCommentEnd (cs ++ beyond) ≤ cs.length) :
    throughCommentEnd (cs ++ beyond) = throughCommentEnd cs := by
  fun_induction throughCommentEnd cs with
  | case1 => exact Nat.le_zero.mp h
  | case2 cs => rfl
  | case3 c cs hne ih =>
    rw [List.cons_append] at h ⊢
    by_cases hclose : c = '*' → (cs ++ beyond).head? ≠ some '/'
    · rw [throughCommentEnd_cons hclose, List.length_cons] at h
      rw [throughCommentEnd_cons hclose, ih (by omega)]
    · obtain ⟨rfl, hslash⟩ := Classical.not_imp.mp hclose
      obtain ⟨rest, hrest⟩ := List.head?_eq_some_iff.mp (Classical.not_not.mp hslash)
      cases cs with
      | nil =>
        rw [hrest, throughCommentEnd] at h
        exact absurd h (by simp)
      | cons d cs =>
        cases hrest
        exact absurd rfl (hne cs rfl)

theorem numberTail_cut {hasBase : Bool} {previous : Char}
    (h : numberTail hasBase previous (cs ++ beyond) ≤ cs.length) :
    numberTail hasBase previous (cs ++ beyond) = numberTail hasBase previous cs := by
  induction cs generalizing previous with
  | nil => exact Nat.le_zero.mp h
  | cons c cs ih =>
    simp only [List.cons_append, numberTail, List.length_cons] at h ⊢
    split at h
    · next hc => rw [if_pos hc, if_pos hc, ih (by omega)]
    · next hc => rw [if_neg hc, if_neg hc]

theorem hasBasePrefix_append {c d : Char} :
    hasBasePrefix (c :: d :: cs) = hasBasePrefix [c, d] := by
  unfold hasBasePrefix
  split <;> split <;> simp_all

/-! ## Quoted texts and regular expressions -/

/-- A character that is followed neither by nothing nor by something as a backslash is none. -/
theorem ne_backslash {c : Char} (hlone : c = '\\' → cs = [] → False)
    (hescape : ∀ d ds, c = '\\' → cs = d :: ds → False) : c ≠ '\\' := by
  rintro rfl
  cases cs with
  | nil => exact hlone rfl rfl
  | cons d ds => exact hescape d ds rfl rfl

theorem throughQuote_cut {quote : Char} (h : throughQuote quote (cs ++ beyond) ≤ cs.length) :
    throughQuote quote (cs ++ beyond) = throughQuote quote cs := by
  fun_induction throughQuote quote cs with
  | case1 => exact Nat.le_zero.mp h
  | case2 =>
    cases beyond with
    | nil => rfl
    | cons d beyond =>
      simp only [List.cons_append, List.nil_append, throughQuote, List.length_cons,
        List.length_nil] at h
      omega
  | case3 d cs ih =>
    simp only [List.cons_append, throughQuote, List.length_cons] at h ⊢
    rw [ih (by omega)]
  | case4 cs hlone hescape =>
    rw [List.cons_append, throughQuote_cons (ne_backslash hlone hescape), if_pos rfl]
  | case5 c cs hlone hescape hquote ih =>
    rw [List.cons_append, throughQuote_cons (ne_backslash hlone hescape), if_neg hquote] at h ⊢
    rw [List.length_cons] at h
    rw [ih (by omega)]

theorem throughSlash_cons {inClass : Bool} {c : Char} (hc : c ≠ '\\') (cs : List Char) :
    throughSlash inClass (c :: cs) =
      if c = '\n' then none
      else if c = '/' && !inClass then some 1
      else (throughSlash (if c = '[' then true else if c = ']' then false else inClass) cs).map
        (1 + ·) := by
  rw [throughSlash]
  · exact fun h => absurd h hc
  · exact fun _ _ h => absurd h hc

theorem throughSlash_pos {inClass : Bool} {n : Nat} (h : throughSlash inClass cs = some n) :
    0 < n := by
  fun_cases throughSlash inClass cs with
  | case1 => cases h
  | case2 => cases h
  | case3 d cs =>
    obtain ⟨m, _, rfl⟩ := Option.map_eq_some_iff.mp h
    omega
  | case4 => cases h
  | case5 c cs hlone hescape hline hclose =>
    rw [throughSlash_cons (ne_backslash hlone hescape), if_neg hline, if_pos hclose] at h
    cases h
    decide
  | case6 =>
    rename_i hlone hescape hline hclose _
    rw [throughSlash_cons (ne_backslash hlone hescape), if_neg hline, if_neg hclose,
      Option.map_eq_some_iff] at h
    obtain ⟨m, _, rfl⟩ := h
    omega

/-- More text does not change where a regular expression closes. -/
theorem throughSlash_append {inClass : Bool} {n : Nat} (h : throughSlash inClass cs = some n) :
    throughSlash inClass (cs ++ beyond) = some n := by
  fun_induction throughSlash inClass cs generalizing n with
  | case1 => cases h
  | case2 => cases h
  | case3 inClass d cs ih =>
    obtain ⟨m, hm, rfl⟩ := Option.map_eq_some_iff.mp h
    simp only [List.cons_append, throughSlash, ih hm, Option.map_some]
  | case4 => cases h
  | case5 inClass c cs hlone hescape hline hclose =>
    rw [List.cons_append, throughSlash_cons (ne_backslash hlone hescape), if_neg hline,
      if_pos hclose, h]
  | case6 =>
    rename_i hlone hescape hline hclose inner ih
    obtain ⟨m, hm, rfl⟩ := Option.map_eq_some_iff.mp h
    rw [List.cons_append, throughSlash_cons (ne_backslash hlone hescape), if_neg hline,
      if_neg hclose, ih hm, Option.map_some]

theorem throughSlash_cut {inClass : Bool} {n : Nat}
    (h : throughSlash inClass (cs ++ beyond) = some n) (hn : n ≤ cs.length) :
    throughSlash inClass cs = some n := by
  fun_induction throughSlash inClass cs generalizing n with
  | case1 => exact absurd (throughSlash_pos h) (Nat.not_lt_of_le hn)
  | case2 =>
    cases beyond with
    | nil => exact h
    | cons d beyond =>
      simp only [List.cons_append, List.nil_append, throughSlash, Option.map_eq_some_iff] at h
      obtain ⟨m, _, rfl⟩ := h
      rw [List.length_singleton] at hn
      omega
  | case3 inClass d cs ih =>
    simp only [List.cons_append, throughSlash, Option.map_eq_some_iff] at h
    obtain ⟨m, hm, rfl⟩ := h
    rw [List.length_cons, List.length_cons] at hn
    rw [ih hm (by omega), Option.map_some]
  | case4 => simp [throughSlash] at h
  | case5 inClass c cs hlone hescape hline hclose =>
    rw [List.cons_append, throughSlash_cons (ne_backslash hlone hescape), if_neg hline,
      if_pos hclose] at h
    exact h
  | case6 =>
    rename_i hlone hescape hline hclose inner ih
    rw [List.cons_append, throughSlash_cons (ne_backslash hlone hescape), if_neg hline,
      if_neg hclose, Option.map_eq_some_iff] at h
    obtain ⟨m, hm, rfl⟩ := h
    rw [List.length_cons] at hn
    rw [ih hm (by omega), Option.map_some]

theorem regexTail_cut {n : Nat} (h : regexTail? (cs ++ beyond) = some n) (hn : n ≤ cs.length) :
    regexTail? cs = some n := by
  obtain ⟨m, hm, rfl⟩ := Option.map_eq_some_iff.mp h
  have hle : m ≤ cs.length := Nat.le_trans (Nat.le_add_right _ _) hn
  rw [List.drop_append_of_le_length hle] at hn ⊢
  rw [regexTail?, throughSlash_cut hm hle, Option.map_some, takeWhile_cut]
  rw [List.length_drop]
  omega

theorem regexTail_eq_none (h : regexTail? (cs ++ beyond) = none) : regexTail? cs = none := by
  rw [regexTail?, Option.map_eq_none_iff] at h ⊢
  cases hcs : throughSlash false cs with
  | none => rfl
  | some n =>
    rw [throughSlash_append hcs] at h
    cases h

/-! ## Marks and operators -/

theorem markLength_single {c : Char} (hdots : ∀ ds, c = '.' → cs ≠ '.' :: '.' :: ds)
    (hchain : c = '?' → cs.head? ≠ some '.') :
    markLength? (c :: cs) = if marks.contains c then some 1 else none := by
  rw [markLength?]
  · rintro ds rfl rfl
    exact hdots ds rfl rfl
  · rintro ds rfl rfl
    exact hchain rfl rfl

theorem any_head?_cut {p : Char → Bool} (h : (cs ++ beyond).head?.any p = false) :
    cs.head?.any p = false := by
  cases cs with
  | nil => rfl
  | cons c cs => exact h

theorem not_or_head?_cut {a b : Bool} {p : Char → Bool}
    (h : ¬ (a || b && (cs ++ beyond).head?.any p) = true) :
    ¬ (a || b && cs.head?.any p) = true := by
  simp only [Bool.or_eq_true, Bool.and_eq_true, not_or, not_and, Bool.not_eq_true] at h ⊢
  exact ⟨h.1, fun hb => any_head?_cut (h.2 hb)⟩

theorem markLength_cut {c : Char} {n : Nat} (h : markLength? (c :: (cs ++ beyond)) = some n)
    (hn : n ≤ cs.length + 1) : markLength? (c :: cs) = some n := by
  by_cases hdots : ∃ ds, c = '.' ∧ cs ++ beyond = '.' :: '.' :: ds
  · obtain ⟨ds, rfl, hds⟩ := hdots
    rw [hds, markLength?] at h
    cases h
    match cs, hds with
    | [], _ => simp at hn
    | [_], _ => simp at hn
    | _ :: _ :: _, hds =>
      cases hds
      rfl
  by_cases hchain : c = '?' ∧ (cs ++ beyond).head? = some '.'
  · obtain ⟨rfl, hhead⟩ := hchain
    obtain ⟨ds, hds⟩ := List.head?_eq_some_iff.mp hhead
    rw [hds, markLength?] at h
    split at h
    · cases h
    · next hdigit =>
      cases h
      cases cs with
      | nil => simp at hn
      | cons d cs =>
        cases hds
        have := any_head?_cut (Bool.eq_false_iff.mpr hdigit)
        rw [markLength?, if_neg (Bool.eq_false_iff.mp this)]
  · simp only [not_exists, not_and] at hdots hchain
    rw [markLength_single hdots hchain] at h
    rw [markLength_single, h]
    · rintro ds rfl rfl
      exact hdots _ rfl rfl
    · rintro rfl hhead
      cases cs with
      | nil => cases hhead
      | cons d cs => exact hchain rfl hhead

theorem markLength_eq_none {c : Char} (h : markLength? (c :: (cs ++ beyond)) = none)
    (hdot : c = '?' → cs = ['.'] → beyond.head?.any isAsciiDigit = false) :
    markLength? (c :: cs) = none := by
  by_cases hchain : c = '?' ∧ cs.head? = some '.'
  · obtain ⟨rfl, hhead⟩ := hchain
    obtain ⟨ds, rfl⟩ := List.head?_eq_some_iff.mp hhead
    rw [List.cons_append, markLength?] at h
    split at h
    · next hdigit =>
      cases ds with
      | nil =>
        rw [List.nil_append, hdot rfl rfl] at hdigit
        cases hdigit
      | cons d ds =>
        rw [markLength?]
        exact if_pos hdigit
    · cases h
  by_cases hdots : ∃ ds, c = '.' ∧ cs = '.' :: '.' :: ds
  · obtain ⟨ds, rfl, rfl⟩ := hdots
    cases h
  simp only [not_exists, not_and] at hdots hchain
  rw [markLength_single hdots hchain, marks_of_markLength_eq_none h]
  rfl

theorem operatorLength_cut {n : Nat} (h : operatorLength? (cs ++ beyond) = some n)
    (hn : n ≤ cs.length) : operatorLength? cs = some n := by
  obtain ⟨op, hop, rfl⟩ := Option.map_eq_some_iff.mp h
  obtain ⟨hbegins, before, after, hops, hbefore⟩ := List.find?_eq_some_iff_append.mp hop
  refine Option.map_eq_some_iff.mpr ⟨op, List.find?_eq_some_iff_append.mpr ⟨?_, ?_⟩, rfl⟩
  · rw [List.isPrefixOf_iff_prefix] at hbegins ⊢
    exact List.prefix_of_prefix_length_le hbegins (List.prefix_append cs beyond) hn
  · refine ⟨before, after, hops, fun a ha => ?_⟩
    have := hbefore a ha
    rw [Bool.not_eq_true', Bool.eq_false_iff, Ne, List.isPrefixOf_iff_prefix] at this ⊢
    exact mt (·.trans (List.prefix_append cs beyond)) this

theorem operatorLength_eq_none (h : operatorLength? (cs ++ beyond) = none) :
    operatorLength? cs = none := by
  rw [operatorLength?, Option.map_eq_none_iff, List.find?_eq_none] at h ⊢
  intro op hop
  have := h op hop
  rw [List.isPrefixOf_iff_prefix] at this ⊢
  exact mt (·.trans (List.prefix_append cs beyond)) this

/-! ## The head of a text -/

/-- A slash that opens no comment begins a regular expression or is an operator. -/
theorem afterSlash_eq {regexMayStart : Bool} (hline : cs.head? ≠ some '/')
    (hblock : cs.head? ≠ some '*') :
    afterSlash regexMayStart cs =
      match if regexMayStart && admitsRegex cs then regexTail? cs else none with
      | some n => .token .regex (1 + n)
      | none => .token .operator (if cs.head? == some '=' then 2 else 1) := by
  unfold afterSlash
  split
  · exact absurd rfl hline
  · exact absurd rfl hblock
  · rfl

theorem regexTail_pos {n : Nat} (h : regexTail? cs = some n) : 0 < n := by
  obtain ⟨m, hm, rfl⟩ := Option.map_eq_some_iff.mp h
  have := throughSlash_pos hm
  omega

/-- Only the operator is as short as the slash. -/
theorem afterSlash_single {regexMayStart : Bool}
    (h : (afterSlash regexMayStart beyond).length ≤ 1) :
    afterSlash regexMayStart beyond = afterSlash regexMayStart [] := by
  by_cases hline : beyond.head? = some '/'
  · obtain ⟨rest, rfl⟩ := List.head?_eq_some_iff.mp hline
    simp only [afterSlash, length, lineLength] at h
    rw [List.takeWhile_cons_of_pos (by decide), List.length_cons] at h
    omega
  by_cases hblock : beyond.head? = some '*'
  · obtain ⟨rest, rfl⟩ := List.head?_eq_some_iff.mp hblock
    simp only [afterSlash, length] at h
    omega
  rw [afterSlash_eq hline hblock] at h ⊢
  split at h
  · next n hn =>
    have htail : regexTail? beyond = some n := by
      split at hn
      · exact hn
      · cases hn
    have hpos := regexTail_pos htail
    simp only [length] at h
    omega
  · next hnone =>
    rw [if_neg]
    · cases regexMayStart <;> rfl
    · intro heq
      rw [if_pos heq] at h
      exact absurd h (by decide)

theorem afterSlash_cut {regexMayStart : Bool}
    (h : (afterSlash regexMayStart (cs ++ beyond)).length ≤ cs.length + 1) :
    afterSlash regexMayStart (cs ++ beyond) = afterSlash regexMayStart cs := by
  cases cs with
  | nil => exact afterSlash_single h
  | cons d cs =>
    by_cases hline : d = '/'
    · subst hline
      simp only [List.cons_append, afterSlash, length, lineLength] at h ⊢
      rw [← List.cons_append] at h ⊢
      rw [takeWhile_cut (by omega)]
    by_cases hblock : d = '*'
    · subst hblock
      simp only [List.cons_append, afterSlash, length, List.length_cons] at h ⊢
      rw [throughCommentEnd_cut (by omega)]
    have hd {ds : List Char} : (d :: ds).head? ≠ some '/' ∧ (d :: ds).head? ≠ some '*' := by
      simp [hline, hblock]
    rw [List.cons_append] at h ⊢
    rw [afterSlash_eq hd.1 hd.2] at h ⊢
    rw [afterSlash_eq hd.1 hd.2]
    have hadmits : admitsRegex (d :: (cs ++ beyond)) = admitsRegex (d :: cs) := rfl
    rw [hadmits] at h ⊢
    by_cases hmay : (regexMayStart && admitsRegex (d :: cs)) = true
    · rw [if_pos hmay] at h ⊢
      rw [if_pos hmay]
      rw [← List.cons_append] at h ⊢
      cases hlong : regexTail? (d :: cs ++ beyond) with
      | none => rw [regexTail_eq_none hlong]; rfl
      | some n =>
        rw [hlong] at h
        simp only [length] at h
        rw [regexTail_cut hlong (by omega)]
    · rw [if_neg hmay, if_neg hmay]
      rfl

/-- A text that is cut off at once has nothing at its head. -/
theorem any_head?_append {q : Char → Bool}
    (h : ∀ d ds, cs = [] → beyond = d :: ds → q d = true → False) :
    (cs ++ beyond).head?.any q = cs.head?.any q := by
  cases cs with
  | cons c cs => rfl
  | nil =>
    cases beyond with
    | nil => rfl
    | cons d ds => exact Bool.eq_false_iff.mpr (h d ds rfl rfl)

theorem any_head?_of_takeWhile {p q : Char → Bool} (hpq : ∀ d, q d = true → p d = true)
    (h : ((cs ++ beyond).takeWhile p).length ≤ cs.length) :
    (cs ++ beyond).head?.any q = cs.head?.any q := by
  apply any_head?_append
  rintro d ds rfl rfl hd
  rw [List.nil_append, List.takeWhile_cons_of_pos (hpq d hd)] at h
  cases h

theorem any_head?_of_numberTail {hasBase : Bool} {previous : Char}
    (h : numberTail hasBase previous (cs ++ beyond) ≤ cs.length) :
    (cs ++ beyond).head?.any isAsciiDigit = cs.head?.any isAsciiDigit := by
  apply any_head?_append
  rintro d ds rfl rfl hd
  have hpart : isNumberPart d = true := by simp [isNumberPart, isAsciiWord, hd]
  simp only [List.nil_append, numberTail, hpart, Bool.true_or, if_true, List.length_nil] at h
  omega

theorem numberLength_cut {c : Char}
    (h : numberTail (hasBasePrefix (c :: (cs ++ beyond))) c (cs ++ beyond) ≤ cs.length) :
    numberTail (hasBasePrefix (c :: (cs ++ beyond))) c (cs ++ beyond) =
      numberTail (hasBasePrefix (c :: cs)) c cs := by
  cases cs with
  | nil => exact Nat.le_zero.mp h
  | cons d cs =>
    have hbase : hasBasePrefix (c :: (d :: cs ++ beyond)) = hasBasePrefix (c :: d :: cs) := by
      rw [List.cons_append, hasBasePrefix_append, ← hasBasePrefix_append]
    rw [hbase] at h ⊢
    exact numberTail_cut h

/-- What stands at the head of a text that is cut off behind it. -/
theorem head_cut {regexMayStart : Bool} {c : Char}
    (h : (head regexMayStart c (cs ++ beyond)).length ≤ cs.length + 1)
    (hdot : c = '?' → cs = ['.'] → beyond.head?.any isAsciiDigit = false) :
    head regexMayStart c (cs ++ beyond) = head regexMayStart c cs := by
  unfold head at h ⊢
  by_cases hgap : isGap c = true
  · rw [if_pos hgap, if_pos hgap]
  rw [if_neg hgap] at h ⊢
  rw [if_neg hgap]
  by_cases hslash : c = '/'
  · rw [if_pos hslash] at h ⊢
    rw [if_pos hslash, afterSlash_cut h]
  rw [if_neg hslash] at h ⊢
  rw [if_neg hslash]
  by_cases hquote : (c = '"' || c = '\'') = true
  · rw [if_pos hquote, length] at h
    rw [if_pos hquote, if_pos hquote, throughQuote_cut (by omega)]
  rw [if_neg hquote] at h ⊢
  rw [if_neg hquote]
  by_cases hback : c = '\x60'
  · rw [if_pos hback, if_pos hback]
  rw [if_neg hback] at h ⊢
  rw [if_neg hback]
  by_cases hname : (isNameStart c || c == '#' && (cs ++ beyond).head?.any isNameStart) = true
  · rw [if_pos hname, length] at h
    have hfits : ((cs ++ beyond).takeWhile isNamePart).length ≤ cs.length := by omega
    rw [if_pos hname]
    rw [any_head?_of_takeWhile (fun _ => isNamePart_of_isNameStart) hfits] at hname
    rw [if_pos hname, takeWhile_cut hfits]
  rw [if_neg hname] at h ⊢
  rw [if_neg (not_or_head?_cut hname)]
  by_cases hdigit : (isAsciiDigit c || c == '.' && (cs ++ beyond).head?.any isAsciiDigit) = true
  · rw [if_pos hdigit, length] at h
    have hfits : numberTail (hasBasePrefix (c :: (cs ++ beyond))) c (cs ++ beyond) ≤
        cs.length := by omega
    rw [if_pos hdigit]
    rw [any_head?_of_numberTail hfits] at hdigit
    rw [if_pos hdigit, numberLength_cut hfits]
  rw [if_neg hdigit] at h ⊢
  rw [if_neg (not_or_head?_cut hdigit)]
  cases hmark : markLength? (c :: (cs ++ beyond)) with
  | some n =>
    rw [hmark] at h
    simp only [length] at h
    rw [markLength_cut hmark h]
  | none =>
    rw [hmark] at h
    rw [markLength_eq_none hmark hdot]
    rw [← List.cons_append] at h ⊢
    cases hoperator : operatorLength? (c :: cs ++ beyond) with
    | some n =>
      rw [hoperator] at h
      simp only [length] at h
      rw [operatorLength_cut hoperator h]
    | none => rw [operatorLength_eq_none hoperator]

end SymbolAtlas.Lexeme
