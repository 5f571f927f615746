import SymbolAtlas.Proofs.Token.Surroundings

/-! # A closing angle mark before an equals sign

With a blank between them, a closing angle mark and an equals sign are two tokens. Without it they
are one operator, and no other token changes: no lexeme before the mark looks past it, and what
stands after the equals sign is read as before, one column further to the left.
-/

namespace SymbolAtlas

open Identifier

namespace Position

def leftOn (line : Int) (p : Position) : Position :=
  if p.line = line then ⟨p.line, p.column - 1⟩ else p

@[simp] theorem leftOn_line (line : Int) (p : Position) : (p.leftOn line).line = p.line := by
  unfold leftOn
  split <;> rfl

theorem leftOn_next {line : Int} {p : Position} (h : line ≤ p.line) (c : Char) :
    (p.leftOn line).next c = (p.next c).leftOn line := by
  unfold leftOn next
  by_cases hc : c = '\n'
  · have hline : ¬ p.line + 1 = line := by omega
    simp only [hc, if_true, hline, if_false]
    split <;> rfl
  · simp only [hc, if_false]
    split
    · simp only [Position.mk.injEq, true_and]
      omega
    · rfl

theorem leftOn_after {line : Int} {p : Position} (h : line ≤ p.line) (text : List Char) :
    (p.leftOn line).after text = (p.after text).leftOn line := by
  induction text generalizing p with
  | nil => rfl
  | cons c text ih =>
    rw [after_cons, after_cons, leftOn_next h, ih (Int.le_trans h (le_line_next p c))]

end Position

namespace Lexeme

def closingMarks : List String := [">", ">>", ">>>"]

theorem closingMarks_cases {mark : String} (h : mark ∈ closingMarks) :
    mark = ">" ∨ mark = ">>" ∨ mark = ">>>" := by
  simpa [closingMarks] using h

variable {cs right : List Char} {regexMayStart : Bool} {c : Char}

/-! ## Lexemes before the mark -/

theorem append_mark (cs more : List Char) : cs ++ '>' :: more = (cs ++ ['>']) ++ more := by
  rw [List.append_assoc, List.singleton_append]

theorem takeWhile_append_of_lt {p : Char → Bool} {beyond more : List Char}
    (h : ((cs ++ beyond).takeWhile p).length < cs.length) :
    (cs ++ more).takeWhile p = (cs ++ beyond).takeWhile p := by
  have hcut := takeWhile_cut (Nat.le_of_lt h)
  rw [hcut] at h
  rw [hcut, List.takeWhile_append, if_neg (Nat.ne_of_lt h)]

/-- A blank after the mark is no part of an escape, so it makes no difference to where a regular
expression closes. -/
theorem throughSlash_unspaced {inClass : Bool}
    (h : throughSlash inClass (cs ++ '>' :: ' ' :: right) = none) :
    throughSlash inClass (cs ++ '>' :: right) = none := by
  have hplain {inClass : Bool} {c : Char} (hc : c = '>' ∨ c = ' ') (ds : List Char) :
      throughSlash inClass (c :: ds) = (throughSlash inClass ds).map (1 + ·) := by
    rcases hc with rfl | rfl <;> rw [throughSlash_cons (by decide)] <;> simp
  fun_induction throughSlash inClass cs with
  | case1 =>
    rw [List.nil_append, hplain (.inl rfl), Option.map_eq_none_iff] at h ⊢
    rwa [hplain (.inr rfl), Option.map_eq_none_iff] at h
  | case2 =>
    simp only [List.cons_append, List.nil_append, throughSlash, Option.map_eq_none_iff] at h ⊢
    rwa [hplain (.inr rfl), Option.map_eq_none_iff] at h
  | case3 inClass d cs ih =>
    simp only [List.cons_append, throughSlash, Option.map_eq_none_iff] at h ⊢
    exact ih h
  | case4 => rw [List.cons_append, throughSlash_cons (by decide), if_pos rfl]
  | case5 inClass c cs hlone hescape hline hclose =>
    rw [List.cons_append, throughSlash_cons (ne_backslash hlone hescape), if_neg hline,
      if_pos hclose] at h
    cases h
  | case6 inClass c =>
    rename_i hlone hescape hline hclose _ ih
    rw [List.cons_append, throughSlash_cons (ne_backslash hlone hescape), if_neg hline,
      if_neg hclose, Option.map_eq_none_iff] at h ⊢
    exact ih h

theorem regexTail_unspaced {n : Nat}
    (hspaced : ∀ m, regexTail? (cs ++ '>' :: ' ' :: right) = some m → m ≤ cs.length)
    (h : regexTail? (cs ++ '>' :: right) = some n) : n ≤ cs.length := by
  obtain ⟨k, hk, rfl⟩ := Option.map_eq_some_iff.mp h
  obtain ⟨m, hm⟩ : ∃ m, throughSlash false (cs ++ '>' :: ' ' :: right) = some m := by
    rw [← Option.ne_none_iff_exists']
    intro hnone
    rw [throughSlash_unspaced hnone] at hk
    cases hk
  have hle := hspaced _ (by rw [regexTail?, hm, Option.map_some])
  have hlength : m ≤ cs.length := Nat.le_trans (Nat.le_add_right _ _) hle
  -- The body closes before the mark, so it is the same body.
  have hsame : throughSlash false (cs ++ '>' :: right) = some m :=
    throughSlash_append (throughSlash_cut hm hlength)
  obtain rfl : m = k := Option.some.inj (hsame.symm.trans hk)
  have hflags : ((cs.drop m ++ '>' :: right).takeWhile isAsciiLetter).length ≤
      (cs.drop m).length := takeWhile_stop (by decide)
  rw [List.length_drop] at hflags
  rw [List.drop_append_of_le_length hlength]
  omega

theorem afterSlash_unspaced (hclosed : isClosed '/' (cs ++ ['>']) = true)
    (h : (afterSlash regexMayStart (cs ++ '>' :: ' ' :: right)).length ≤ cs.length + 1) :
    (afterSlash regexMayStart (cs ++ '>' :: right)).length ≤ cs.length + 2 := by
  by_cases hblock : cs.head? = some '*'
  · obtain ⟨rest, rfl⟩ := List.head?_eq_some_iff.mp hblock
    have hle : throughCommentEnd ((rest ++ ['>']) ++ right) ≤ (rest ++ ['>']).length :=
      throughCommentEnd_le hclosed
    rw [append_mark, List.cons_append, List.cons_append, afterSlash, length]
    simp only [List.length_append, List.length_cons, List.length_nil] at hle ⊢
    omega
  by_cases hline : cs.head? = some '/'
  · obtain ⟨rest, rfl⟩ := List.head?_eq_some_iff.mp hline
    rw [List.cons_append, afterSlash, length, lineLength, ← List.cons_append, append_mark] at h
    have hshort : (((('/' :: rest) ++ ['>']) ++ ' ' :: right).takeWhile (· != '\n')).length <
        (('/' :: rest) ++ ['>']).length := by
      rw [List.length_append, List.length_singleton]
      omega
    rw [List.cons_append, afterSlash, length, lineLength, ← List.cons_append, append_mark,
      takeWhile_append_of_lt hshort]
    omega
  have hhead (more : List Char) : (cs ++ '>' :: more).head? ≠ some '/' :=
    head?_stop_ne hline (by decide)
  have hhead' (more : List Char) : (cs ++ '>' :: more).head? ≠ some '*' :=
    head?_stop_ne hblock (by decide)
  have hadmits : admitsRegex (cs ++ '>' :: right) = admitsRegex (cs ++ '>' :: ' ' :: right) := by
    cases cs <;> rfl
  rw [afterSlash_eq (hhead _) (hhead' _)] at h ⊢
  rw [hadmits]
  by_cases hmay : (regexMayStart && admitsRegex (cs ++ '>' :: ' ' :: right)) = true
  · rw [if_pos hmay] at h ⊢
    cases htail : regexTail? (cs ++ '>' :: right) with
    | none =>
      simp only [length]
      split <;> omega
    | some n =>
      have hle : n ≤ cs.length := by
        refine regexTail_unspaced (fun m hm => ?_) htail
        rw [hm] at h
        simp only [length] at h
        omega
      simp only [length]
      omega
  · rw [if_neg hmay]
    simp only [length]
    split <;> omega

/-! ## The mark itself -/

theorem length_le_of_mem_operators : ∀ op ∈ operators, op.toList.length ≤ 4 := by decide

/-- Before `>=` an operator has closing marks only. -/
theorem operators_equals : ∀ op ∈ operators, ∀ n < 4, ['>', '='] <+: op.toList.drop n →
    n ≤ 2 ∧ op.toList.take n = List.replicate n '>' := by decide

/-- An operator that ends before the mark does not go on through the mark and an equals sign. -/
theorem operatorLength_unspaced {n : Nat}
    (h : (head regexMayStart c (cs ++ '>' :: ' ' :: '=' :: right)).length ≤ cs.length + 1)
    (hn : operatorLength? (c :: (cs ++ '>' :: '=' :: right)) = some n) : n ≤ cs.length + 2 := by
  obtain ⟨op, hop, rfl⟩ := Option.map_eq_some_iff.mp hn
  obtain ⟨after, hafter⟩ := List.isPrefixOf_iff_prefix.mp (List.find?_some hop :)
  have hmem := List.mem_of_find?_eq_some hop
  apply Nat.le_of_not_lt
  intro hlt
  rw [← String.length_toList] at hlt
  have hshort := length_le_of_mem_operators op hmem
  have hfront : op.toList.take (cs.length + 1) = c :: cs := by
    have htake : (op.toList ++ after).take (cs.length + 1) = op.toList.take (cs.length + 1) :=
      List.take_append_of_le_length (by omega)
    rw [← htake, hafter, List.take_succ_cons, List.take_left]
  have hback : op.toList.drop (cs.length + 1) ++ after = '>' :: '=' :: right := by
    rw [← List.drop_append_of_le_length (by omega), hafter, List.drop_succ_cons, List.drop_left]
  have hequals : ['>', '='] <+: op.toList.drop (cs.length + 1) := by
    have hlength : 2 ≤ (op.toList.drop (cs.length + 1)).length := by
      rw [List.length_drop]
      omega
    exact List.prefix_of_prefix_length_le ⟨right, rfl⟩ ⟨after, hback⟩ hlength
  obtain ⟨hle, hmarks⟩ := operators_equals op hmem _ (by omega) hequals
  rw [hfront] at hmarks
  match cs, hle, hmarks with
  | [], _, hmarks =>
    cases hmarks
    exact absurd h (by decide : ¬ (2 : Nat) ≤ 1)
  | [_], _, hmarks =>
    cases hmarks
    exact absurd h (by decide : ¬ (3 : Nat) ≤ 2)

theorem head_mark {more : List Char}
    (h : (head regexMayStart c (cs ++ '>' :: more)).length ≤ cs.length + 2) :
    head regexMayStart c (cs ++ '>' :: more) = head regexMayStart c (cs ++ ['>']) := by
  rw [append_mark] at h ⊢
  refine head_cut (by rw [List.length_append]; exact h) fun _ hdot => ?_
  have hlast := congrArg List.getLast? hdot
  rw [List.getLast?_append_cons] at hlast
  cases hlast

/-- What ends before the mark does not look past it. -/
theorem length_head_unspaced
    (h : (head regexMayStart c (cs ++ '>' :: ' ' :: '=' :: right)).length ≤ cs.length + 1) :
    (head regexMayStart c (cs ++ '>' :: '=' :: right)).length ≤ cs.length + 2 := by
  have hclosed : isClosed c (cs ++ ['>']) = true := by
    rw [← Bool.not_eq_false]
    intro hopen
    rw [head_mark (by omega), length_head_of_not_isClosed hopen, List.length_append] at h
    exact absurd h (by simp)
  apply length_head_stop (by decide +kernel) (by decide) (by decide) (by decide) (Nat.le_succ _)
  · rintro rfl
    exact afterSlash_unspaced hclosed h
  · intro hquote
    have hcloses : closesQuote c (cs ++ ['>']) = true := by
      rcases hquote with rfl | rfl <;> exact hclosed
    have hle : throughQuote c ((cs ++ ['>']) ++ '=' :: right) ≤ (cs ++ ['>']).length :=
      throughQuote_le hcloses
    rw [append_mark]
    simp only [List.length_append, List.length_singleton] at hle
    omega
  · exact fun n hn => operatorLength_unspaced h hn

/-- What ends before the mark is the same with the blank and without it. -/
theorem head_unspaced
    (h : (head regexMayStart c (cs ++ '>' :: ' ' :: '=' :: right)).length ≤ cs.length + 1) :
    head regexMayStart c (cs ++ '>' :: '=' :: right) =
      head regexMayStart c (cs ++ '>' :: ' ' :: '=' :: right) := by
  have hspaced := head_mark (Nat.le_succ_of_le h)
  exact (head_mark (length_head_unspaced h)).trans hspaced.symm

end Lexeme

namespace Cursor

/-- The cursors stand at one place of two texts that differ in the blank after a closing mark
further on, before `=` and the text `right`. -/
structure Unspaced (right : List Char) (c d : Cursor) : Prop where
  position_eq : d.position = c.position
  exists_rest : ∃ front, c.rest = front ++ '>' :: ' ' :: '=' :: right ∧
    d.rest = front ++ '>' :: '=' :: right

namespace Unspaced

variable {right cs : List Char} {c d stop last : Cursor} {n : Nat} {ch : Char}

/-- A step that does not pass the mark stays within what the texts share. -/
theorem exists_front (h : Unspaced right c d)
    (hn : right.length + 3 ≤ (c.advance n).rest.length) :
    ∃ front, c.rest = front ++ '>' :: ' ' :: '=' :: right ∧ d.rest = front ++ '>' :: '=' :: right ∧
      n ≤ front.length := by
  obtain ⟨front, hc, hd⟩ := h.exists_rest
  rw [advance_rest_length, hc, List.length_append] at hn
  simp only [List.length_cons] at hn
  exact ⟨front, hc, hd, by omega⟩

theorem advance (h : Unspaced right c d) (hn : right.length + 3 ≤ (c.advance n).rest.length) :
    Unspaced right (c.advance n) (d.advance n) := by
  obtain ⟨front, hc, hd, hle⟩ := h.exists_front hn
  refine ⟨?_, front.drop n, ?_, ?_⟩
  · rw [advance_position, advance_position, hc, hd, h.position_eq,
      List.take_append_of_le_length hle, List.take_append_of_le_length hle]
  · rw [advance_rest, hc, List.drop_append_of_le_length hle]
  · rw [advance_rest, hd, List.drop_append_of_le_length hle]

theorem take_eq (h : Unspaced right c d) (hn : right.length + 3 ≤ (c.advance n).rest.length) :
    d.rest.take n = c.rest.take n := by
  obtain ⟨front, hc, hd, hle⟩ := h.exists_front hn
  rw [hc, hd, List.take_append_of_le_length hle, List.take_append_of_le_length hle]

/-- The characters before the mark are the same. -/
theorem exists_cons (h : Unspaced right c d) (hc : c.rest = ch :: cs)
    (hcs : right.length + 3 ≤ cs.length) :
    ∃ front, cs = front ++ '>' :: ' ' :: '=' :: right ∧
      d.rest = ch :: (front ++ '>' :: '=' :: right) := by
  obtain ⟨front, hfront, hd⟩ := h.exists_rest
  rw [hc] at hfront
  cases front with
  | nil =>
    cases hfront
    simp only [List.length_cons] at hcs
    omega
  | cons e front =>
    cases hfront
    exact ⟨front, rfl, hd⟩

/-- The same lexeme stands at both cursors, if it does not pass the mark. -/
theorem headAfter_eq {previous : Option Token} (h : Unspaced right c d) (hc : c.rest = ch :: cs)
    (hn : right.length + 3 ≤ (c.advance (Scan.headAfter previous ch cs).length).rest.length) :
    ∃ ds, d.rest = ch :: ds ∧ Scan.headAfter previous ch ds = Scan.headAfter previous ch cs := by
  have hpos := Scan.length_pos_of_headAfter (rfl : Scan.headAfter previous ch cs = _)
  rw [advance_rest_length, hc, List.length_cons] at hn
  obtain ⟨front, rfl, hd⟩ := h.exists_cons hc (by omega)
  refine ⟨_, hd, Lexeme.head_unspaced ?_⟩
  simp only [List.length_append, List.length_cons] at hn
  rw [Scan.headAfter] at hn
  omega

theorem slice_eq (h : Unspaced right c d) (hc : c.Reaches stop) (hd : d.Reaches last)
    (hlast : Unspaced right stop last) : d.slice last = c.slice stop := by
  obtain ⟨front, hfront, hfront'⟩ := h.exists_rest
  obtain ⟨tail, htail, htail'⟩ := hlast.exists_rest
  apply hd.slice_eq
  have hsplit := hc.rest_eq
  rw [hfront, htail, ← List.append_assoc] at hsplit
  rw [hfront', htail', List.append_cancel_right hsplit, List.append_assoc]

theorem simulation (right : List Char) :
    Scan.Simulation id (right.length + 3) (Unspaced right) where
  position_eq h := h.position_eq
  advance h hn := h.advance hn
  take_eq h hn := h.take_eq hn
  slice_eq h hlast hc hd := h.slice_eq hc hd hlast
  done h hleft hc := absurd (hc ▸ hleft) (Nat.not_succ_le_zero _)
  headAfter_eq h hc hn := h.headAfter_eq hc hn
  opens {c d ch cs ds} h hc hd hn hopen := by
    rw [advance_rest, hc, List.drop_one, List.tail_cons] at hn
    obtain ⟨front, rfl, hd'⟩ := h.exists_cons hc hn
    obtain rfl : front ++ '>' :: '=' :: right = ds := (List.cons.inj (hd'.symm.trans hd)).2
    cases front with
    | nil => cases hopen
    | cons e front => exact hopen

end Unspaced

end Cursor

namespace Scan

open Token

variable {right : List Char}

/-! ## Tokens before the mark -/

/-- Outside every template literal, the tokens `ts` are read from `c` to `mid`. -/
inductive Passage : Option Token → Cursor → List Token → Cursor → Prop
  | refl {previous : Option Token} {c : Cursor} : Passage previous c [] c
  | gap {previous : Option Token} {c mid : Cursor} {ch : Char} {cs : List Char} {n : Nat}
      {ts : List Token} (hc : c.rest = ch :: cs) (hhead : headAfter previous ch cs = .gap n)
      (next : Passage previous (c.advance n) ts mid) : Passage previous c ts mid
  | token {previous : Option Token} {c mid : Cursor} {ch : Char} {cs : List Char} {kind : Kind}
      {n : Nat} {ts : List Token} (hc : c.rest = ch :: cs)
      (hhead : headAfter previous ch cs = .token kind n)
      (next : Passage (some (tokenBetween kind c (c.advance n))) (c.advance n) ts mid) :
      Passage previous c (tokenBetween kind c (c.advance n) :: ts) mid
  | literal {previous : Option Token} {c last mid : Cursor} {ch : Char} {cs : List Char}
      {groups : List (List Token)} {isClosed : Bool} {ts : List Token} (hc : c.rest = ch :: cs)
      (hhead : headAfter previous ch cs = .backquote)
      (body : Template (c.advance 1) groups last isClosed)
      (next : Passage (some (literalBetween c last groups)) last ts mid) :
      Passage previous c (literalBetween c last groups :: ts) mid

section Passage

variable {previous : Option Token} {c d mid stop : Cursor} {ts us : List Token}

theorem Passage.reaches (h : Passage previous c ts mid) : c.Reaches mid := by
  induction h with
  | refl => exact .refl _
  | gap _ _ _ ih => exact .of_advance ih
  | token _ _ _ ih => exact .of_advance ih
  | literal _ _ body _ ih => exact .of_advance (body.reaches.trans ih)

/-- Code after a passage. -/
theorem Passage.code (h : Passage previous c ts mid)
    (reading : Code .outside (ts.getLast?.or previous) mid us stop) :
    Code .outside previous c (ts ++ us) stop := by
  induction h with
  | refl => exact reading
  | gap hc hhead _ ih => exact .gap hc hhead (ih reading)
  | token hc hhead _ ih =>
    rw [getLast?_cons_or] at reading
    exact .token hc hhead rfl (ih reading)
  | literal hc hhead body _ ih =>
    rw [getLast?_cons_or] at reading
    exact .literal hc hhead body (ih reading)

/-- Tokens before the mark are read in the same way without the blank. -/
theorem Passage.unspaced (h : Passage previous c ts mid) (hd : c.Unspaced right d)
    (hmid : right.length + 3 ≤ mid.rest.length) :
    ∃ last, Passage previous d ts last ∧ mid.Unspaced right last := by
  have S := Cursor.Unspaced.simulation right
  induction h generalizing d with
  | refl => exact ⟨d, .refl, hd⟩
  | gap hc hhead next ih =>
    have hn := Nat.le_trans hmid next.reaches.rest_length_le
    obtain ⟨ds, hds, hhead'⟩ := S.head_eq hd hc hhead rfl hn
    obtain ⟨last, hnext, hlast⟩ := ih (hd.advance hn) hmid
    exact ⟨last, .gap hds hhead' hnext, hlast⟩
  | @token _ _ _ _ _ kind _ _ hc hhead next ih =>
    have hn := Nat.le_trans hmid next.reaches.rest_length_le
    obtain ⟨ds, hds, hhead'⟩ := S.head_eq hd hc hhead rfl hn
    obtain ⟨last, hnext, hlast⟩ := ih (hd.advance hn) hmid
    have htoken := S.tokenBetween_eq hd hn kind
    rw [move_id] at htoken
    rw [← htoken] at hnext ⊢
    exact ⟨last, .token hds hhead' hnext, hlast⟩
  | @literal _ _ _ _ _ _ groups _ _ hc hhead body next ih =>
    have hbody := Nat.le_trans hmid next.reaches.rest_length_le
    have hn := Nat.le_trans hbody body.reaches.rest_length_le
    obtain ⟨ds, hds, hhead'⟩ := S.head_eq hd hc hhead rfl hn
    obtain ⟨inner, hinner, hinner'⟩ := body.simulated_id S (hd.advance hn) hbody
    obtain ⟨last, hnext, hlast⟩ := ih hinner' hmid
    have hliteral := S.literalBetween_eq hd hinner' (.of_advance body.reaches)
      (.of_advance hinner.reaches) groups
    simp only [map_move_id, List.map_id', move_id] at hliteral
    rw [← hliteral] at hnext ⊢
    exact ⟨last, .literal hds hhead' hinner hnext, hlast⟩

end Passage

/-- A token other than a template literal is read after a passage of the tokens before it. -/
theorem Code.exists_passage {nesting : Nesting} {previous : Option Token} {c stop : Cursor}
    {ts front after : List Token} {t : Token} {kind : Kind} :
    Code nesting previous c ts stop → nesting = .outside → ts = front ++ t :: after →
      t.hasKind kind = true →
        ∃ mid ch cs n, Passage previous c front mid ∧ mid.rest = ch :: cs ∧
          headAfter (front.getLast?.or previous) ch cs = .token kind n ∧
          t = tokenBetween kind mid (mid.advance n) ∧
          Code .outside (some t) (mid.advance n) after stop
  | .done _, _, hts, _ =>
    absurd hts.symm (List.append_ne_nil_of_right_ne_nil _ (List.cons_ne_nil _ _))
  | .gap hc hhead next, hnesting, hts, hkind => by
    obtain ⟨mid, ch, cs, n, passage, read⟩ := next.exists_passage hnesting hts hkind
    exact ⟨mid, ch, cs, n, .gap hc hhead passage, read⟩
  | .closing _ _ _, _, hts, _ =>
    absurd hts.symm (List.append_ne_nil_of_right_ne_nil _ (List.cons_ne_nil _ _))
  | @Code.token _ inner _ _ _ _ _ _ _ _ hc hhead hnest next, hnesting, hts, hkind => by
    have hinner : inner = .outside := by
      rw [hnesting] at hnest
      exact (Option.some.inj hnest).symm
    cases front with
    | nil =>
      cases hts
      have hsame := of_decide_eq_true ((hasKind_plain _ _ _ _).symm.trans hkind)
      subst hsame
      exact ⟨_, _, _, _, .refl, hc, hhead, rfl, hinner ▸ next⟩
    | cons u front =>
      obtain ⟨hu, hts⟩ := List.cons.inj hts
      obtain ⟨mid, ch, cs, n, passage, read⟩ := next.exists_passage hinner hts hkind
      rw [getLast?_cons_or, ← hu]
      exact ⟨mid, ch, cs, n, .token hc hhead passage, read⟩
  | .literal hc hhead body next, hnesting, hts, hkind => by
    cases front with
    | nil =>
      cases hts
      cases hkind
    | cons u front =>
      obtain ⟨hu, hts⟩ := List.cons.inj hts
      obtain ⟨mid, ch, cs, n, passage, read⟩ := next.exists_passage hnesting hts hkind
      rw [getLast?_cons_or, ← hu]
      exact ⟨mid, ch, cs, n, .literal hc hhead body passage, read⟩

/-! ## Where the code begins -/

theorem interpreter_mark_iff {front more more' : List Char} :
    ['#', '!'] <+: front ++ '>' :: more ↔ ['#', '!'] <+: front ++ '>' :: more' := by
  match front with
  | [] => simp [List.cons_prefix_cons]
  | [_] => simp [List.cons_prefix_cons]
  | _ :: _ :: _ => simp [List.cons_prefix_cons]

theorem unspaced_ofList (front right : List Char) :
    (Cursor.ofList (front ++ '>' :: ' ' :: '=' :: right)).Unspaced right
      (.ofList (front ++ '>' :: '=' :: right)) :=
  ⟨rfl, front, rfl, rfl⟩

theorem unspaced_codeStart {front right : List Char}
    (h : right.length + 3 ≤ (codeStart (front ++ '>' :: ' ' :: '=' :: right)).rest.length) :
    (codeStart (front ++ '>' :: ' ' :: '=' :: right)).Unspaced right
      (codeStart (front ++ '>' :: '=' :: right)) := by
  by_cases hline : ['#', '!'] <+: front ++ '>' :: ' ' :: '=' :: right
  · rw [codeStart_of_interpreter hline] at h ⊢
    rw [codeStart_of_interpreter (interpreter_mark_iff.mp hline)]
    have hlength : Lexeme.lineLength (front ++ '>' :: '=' :: right) =
        Lexeme.lineLength (front ++ '>' :: ' ' :: '=' :: right) := by
      rw [Cursor.advance_rest_length, Cursor.ofList, List.length_append] at h
      simp only [List.length_cons] at h
      unfold Lexeme.lineLength at h ⊢
      rw [Lexeme.append_mark front (' ' :: _)] at h ⊢
      rw [Lexeme.append_mark front ('=' :: _), Lexeme.takeWhile_append_of_lt]
      rw [List.length_append, List.length_singleton]
      omega
    rw [hlength]
    exact (unspaced_ofList front right).advance h
  · rw [codeStart_of_not_interpreter hline,
      codeStart_of_not_interpreter (mt interpreter_mark_iff.mpr hline)]
    exact unspaced_ofList front right

/-! ## The mark and the equals sign -/

/-- Three closing marks at most are one operator, with or without an equals sign. -/
theorem headAfter_glued {mark : String} (h : mark ∈ Lexeme.closingMarks) (previous : Option Token)
    (right : List Char) :
    ∃ cs, mark.toList ++ '=' :: right = '>' :: cs ∧
      headAfter previous '>' cs = .token .operator (mark.toList.length + 1) := by
  rcases Lexeme.closingMarks_cases h with rfl | rfl | rfl
  · exact ⟨_, rfl, rfl⟩
  · exact ⟨_, rfl, rfl⟩
  · exact ⟨_, rfl, rfl⟩

theorem headAfter_equals (previous : Option Token) (right : List Char) :
    ∃ n, headAfter previous '=' right = .token .operator n := by
  cases hlength : Lexeme.operatorLength? ('=' :: right) with
  | none =>
    rw [Lexeme.operatorLength?, Option.map_eq_none_iff, List.find?_eq_none] at hlength
    exact absurd (List.isPrefixOf_iff_prefix.mpr ⟨right, rfl⟩) (hlength "=" (by decide))
  | some n =>
    refine ⟨n, ?_⟩
    rw [headAfter, Lexeme.head, hlength]
    rfl

/-- Without the blank, what stands after the equals sign is one column further to the left. -/
theorem after_marks {mark : String} (h : mark ∈ Lexeme.closingMarks) (p : Position) :
    (p.after (mark.toList ++ [' ', '='])).line = p.line ∧
      (p.after (mark.toList ++ [' ', '='])).leftOn p.line = p.after (mark.toList ++ ['=']) := by
  rcases Lexeme.closingMarks_cases h with rfl | rfl | rfl <;>
    simp [Position.after, Position.next, Position.leftOn, utf16Width]

section Inversion

variable {nesting : Nesting} {previous : Option Token} {c stop : Cursor} {ch : Char}
  {cs : List Char} {n : Nat} {t : Token} {ts : List Token} {kind : Kind}

theorem Code.of_gap (reading : Code nesting previous c ts stop) (hc : c.rest = ch :: cs)
    (hhead : headAfter previous ch cs = .gap n) :
    Code nesting previous (c.advance n) ts stop := by
  cases reading with
  | done hc' => cases hc.symm.trans hc'
  | gap hc' hhead' next =>
    cases hc.symm.trans hc'
    cases hhead.symm.trans hhead'
    exact next
  | closing hc' hhead' _ | token hc' hhead' _ _ | literal hc' hhead' _ _ =>
    cases hc.symm.trans hc'
    cases hhead.symm.trans hhead'

theorem Code.of_token (reading : Code .outside previous c (t :: ts) stop) (hc : c.rest = ch :: cs)
    (hhead : headAfter previous ch cs = .token kind n) :
    t = tokenBetween kind c (c.advance n) ∧ Code .outside (some t) (c.advance n) ts stop := by
  cases reading with
  | token hc' hhead' hnest next =>
    cases hc.symm.trans hc'
    cases hhead.symm.trans hhead'
    cases hnest
    exact ⟨rfl, next⟩
  | gap hc' hhead' _ | literal hc' hhead' _ _ =>
    cases hc.symm.trans hc'
    cases hhead.symm.trans hhead'

end Inversion

/-- After a mark come the blank and the equals sign. -/
theorem Code.exists_equals {previous : Option Token} {c stop : Cursor} {equals : Token}
    {rest : List Token} {right : List Char}
    (reading : Code .outside previous c (equals :: rest) stop)
    (hequals : equals.isOperator "=" = true) (hc : c.rest = ' ' :: '=' :: right) :
    ∃ d, d.rest = right ∧ d.position = c.position.after [' ', '='] ∧
      Code .outside (some equals) d rest stop := by
  obtain ⟨n, hhead⟩ := headAfter_equals previous right
  have hblank : (c.advance 1).rest = '=' :: right := by rw [Cursor.advance_rest, hc]; rfl
  obtain ⟨htoken, next⟩ := (reading.of_gap hc rfl).of_token hblank hhead
  have htext : (c.advance 1).rest.take n = ['='] := by
    rw [isOperator, is, Bool.and_eq_true, beq_iff_eq, htoken, tokenBetween, text,
      Cursor.slice_advance] at hequals
    exact String.toList_ofList.symm.trans (congrArg String.toList hequals.2)
  refine ⟨_, ?_, ?_, next⟩
  · have hsplit := List.take_append_drop n (c.advance 1).rest
    rw [htext, hblank] at hsplit
    rw [Cursor.advance_rest, hblank]
    exact (List.cons.inj hsplit).2
  · rw [Cursor.advance_position, htext, Cursor.advance_position, hc, ← Position.after_append]
    rfl

/-- The code after the equals sign is read one column further to the left, after an operator as
before. -/
theorem Code.leftOn {p : Position} {mark : String} {equals : Token} {c d stop : Cursor}
    {rest : List Token} (reading : Code .outside (some equals) c rest stop)
    (hmark : mark ∈ Lexeme.closingMarks) (hequals : equals.isOperator "=" = true)
    (hrest : d.rest = c.rest) (hc : c.position = p.after (mark.toList ++ [' ', '=']))
    (hd : d.position = p.after (mark.toList ++ ['='])) :
    ∃ last, Code .outside (some (.plain .operator p (mark ++ "="))) d
      (rest.map (move (Position.leftOn p.line))) last := by
  obtain ⟨hline, hleft⟩ := after_marks hmark p
  have hmatches : c.Matches (Position.leftOn p.line) [] d := by
    refine ⟨by rw [hrest, List.append_nil], fun text => ?_, fun _ => rfl⟩
    rw [hd, ← hleft, hc, Position.leftOn_after (Int.le_of_eq hline.symm)]
  have hprevious : (some (plain .operator p (mark ++ "="))).all mayPrecedeRegex =
      (some equals).all mayPrecedeRegex := by
    obtain ⟨q, rfl⟩ := eq_of_is hequals
    rcases Lexeme.closingMarks_cases hmark with rfl | rfl | rfl <;> rfl
  obtain ⟨last, moved, -⟩ := reading.moved hmatches (Nat.zero_le _) hprevious
  exact ⟨last, moved⟩

/-- Without the blank, the mark and the equals sign are read as one operator before that code. -/
theorem Code.glued {previous previous' : Option Token} {p : Position} {mark : String}
    {equals : Token} {c d stop : Cursor} {rest : List Token} {right : List Char}
    (reading : Code .outside previous c (equals :: rest) stop) (hmark : mark ∈ Lexeme.closingMarks)
    (hequals : equals.isOperator "=" = true) (hc : c.rest = ' ' :: '=' :: right)
    (hafter : c.position = p.after mark.toList) (hd : d.rest = mark.toList ++ '=' :: right)
    (hposition : d.position = p) :
    ∃ last, Code .outside previous' d (.plain .operator p (mark ++ "=") ::
      rest.map (move (Position.leftOn p.line))) last := by
  obtain ⟨e, herest, heposition, next⟩ := reading.exists_equals hequals hc
  obtain ⟨more, hmore, hhead⟩ := headAfter_glued hmark previous' right
  have htake : d.rest.take (mark.toList.length + 1) = mark.toList ++ ['='] := by
    rw [hd, List.take_length_add_append]
    rfl
  have hglued : tokenBetween .operator d (d.advance (mark.toList.length + 1)) =
      .plain .operator p (mark ++ "=") := by
    rw [tokenBetween, Cursor.slice_advance, htake, hposition, String.ofList_append,
      String.ofList_toList]
  have hrest : (d.advance (mark.toList.length + 1)).rest = e.rest := by
    rw [Cursor.advance_rest, hd, List.drop_length_add_append, herest]
    rfl
  obtain ⟨last, moved⟩ := next.leftOn hmark hequals hrest
    (by rw [heposition, hafter, ← Position.after_append])
    (by rw [Cursor.advance_position, htake, hposition])
  rw [← hglued] at moved ⊢
  exact ⟨last, .token (hd.trans hmore) hhead rfl moved⟩

end Scan

open Scan

/-- A blank between a closing angle mark and an equals sign can be taken away: the two are one
operator then, what stands before them is read as it was, and so is what follows, one column
further to the left on their line. -/
theorem tokenize_unspaced {spaced : String} {front rest : List Token} {close equals : Token}
    {left right : List Char} (htokens : tokenize spaced = front ++ close :: equals :: rest)
    (hclose : close.hasKind .operator = true) (hmark : close.text ∈ Lexeme.closingMarks)
    (hequals : equals.isOperator "=" = true)
    (hstands : Token.StandsBetween spaced close left (' ' :: '=' :: right)) :
    tokenize (String.ofList (left ++ (close.text.toList ++ '=' :: right))) =
      front ++ .plain .operator close.position (close.text ++ "=") ::
        rest.map (Token.move (Position.leftOn close.line)) := by
  obtain ⟨stop, reading⟩ := tokenize_reads spaced
  obtain ⟨mid, ch, cs, n, passage, -, -, htoken, code⟩ :=
    reading.exists_passage rfl htokens hclose
  have hin := (codeStart_isIn spaced.toList).reaches passage.reaches
  have hposition : close.position = mid.position := by rw [htoken]; rfl
  have htext : close.text.toList = mid.rest.take n := by
    rw [htoken, tokenBetween, Token.text, String.toList_ofList, Cursor.slice_advance]
  -- The token stands at one place only, so the blank and the equals sign are next.
  have hafter : mid.rest.drop n = ' ' :: '=' :: right :=
    ((Token.StandsBetween.of_isIn hin hposition
      (by rw [htext, List.take_append_drop])).unique hstands).2
  have hmid : mid.rest = close.text.toList ++ ' ' :: '=' :: right := by
    rw [htext, ← hafter, List.take_append_drop]
  obtain ⟨marks, hmarks⟩ : ∃ marks, close.text.toList = marks ++ ['>'] := by
    rcases Lexeme.closingMarks_cases hmark with h | h | h <;> rw [h]
    exacts [⟨[], rfl⟩, ⟨['>'], rfl⟩, ⟨['>', '>'], rfl⟩]
  have hspaced : spaced.toList = (left ++ marks) ++ '>' :: ' ' :: '=' :: right := by
    rw [hstands.source_eq, hmarks]
    simp
  have htight : (String.ofList (left ++ (close.text.toList ++ '=' :: right))).toList =
      (left ++ marks) ++ '>' :: '=' :: right := by
    rw [String.toList_ofList, hmarks]
    simp
  have hlength : right.length + 3 ≤ mid.rest.length := by
    rw [hmid, hmarks]
    simp only [List.length_append, List.length_cons]
    omega
  -- The same tokens up to the mark.
  rw [hspaced] at passage
  obtain ⟨d, passage', hd⟩ := passage.unspaced
    (unspaced_codeStart (Nat.le_trans hlength passage.reaches.rest_length_le)) hlength
  rw [← htight] at passage'
  have hdrest : d.rest = close.text.toList ++ '=' :: right := by
    obtain ⟨before, hbefore, hbefore'⟩ := hd.exists_rest
    rw [hmid, hmarks, ← Lexeme.append_mark] at hbefore
    rw [hbefore', hmarks, ← Lexeme.append_mark, List.append_cancel_right hbefore]
  obtain ⟨last, glued⟩ := code.glued hmark hequals (by rw [Cursor.advance_rest, hafter])
    (by rw [Cursor.advance_position, ← htext, hposition]) hdrest
    (hd.position_eq.trans hposition.symm)
  exact (passage'.code glued).tokenize_eq

end SymbolAtlas
