import Mathlib
import SymbolAtlas.Proofs.Python.Specification
import SymbolAtlas.Proofs.Python.WholeWord
import SymbolAtlas.Proofs.Python.Word

/-! # Where a parser stands

A parser that reads a source keeps standing in it, and where a name may come next no word goes on.
This is an invariant of every step: only a number may end inside a word, and after a number the
grammar has a place for keywords and marks, but for no name.
-/

namespace SymbolAtlas.Python

open Std.Do

set_option mvcgen.warning false

/-! ## What lies before a token -/

variable {source : List Char}

theorem isWordPart_of_isFiller {c : Char} (h : isFiller c = true) : isWordPart c = false := by
  by_cases hc : c.toNat < 0x80
  · exact forall_ascii (P := fun c => isFiller c = true → isWordPart c = false)
      (by decide +kernel) hc h
  · simp only [isFiller, Bool.or_eq_true, beq_iff_eq, Bool.and_eq_true, decide_eq_true_eq] at h
    rcases h with (((rfl | ⟨_, h⟩) | rfl) | rfl) | rfl
    · decide +kernel
    · exact absurd (Nat.lt_of_le_of_lt h (by decide)) hc
    all_goals decide +kernel

/-- A margin before a character of a word ends right there. -/
theorem head_of_broken {readsComments : Bool} {cs : List Char} {m : Margin}
    (hm : Margin.read readsComments cs = some m) (hbroken : m.broken = true) :
    cs.head?.any isWordPart = false := by
  cases cs with
  | nil => rfl
  | cons c cs =>
    rw [List.head?_cons, Option.any_some, Bool.eq_false_iff]
    intro hc
    have hne {d : Char} (hd : isWordPart d = false) : c ≠ d := by
      rintro rfl
      rw [hd] at hc
      cases hc
    have h1 : c ≠ '\n' := hne (by decide +kernel)
    have h2 : c ≠ ' ' := hne (by decide +kernel)
    have h3 : c ≠ '\t' := hne (by decide +kernel)
    have h4 : c ≠ '\r' := hne (by decide +kernel)
    have h5 : c ≠ '\x0c' := hne (by decide +kernel)
    have h6 : c ≠ '\\' := hne (by decide +kernel)
    have h7 : c ≠ '#' := hne (by decide +kernel)
    simp [Margin.read, Margin.scan, h1, h2, h3, h4, h5, h6, h7] at hm
    rw [← hm] at hbroken
    cases hbroken

theorem broken_of_token {m : Margin} {demand : Demand} {block : Nat} {inFormat : Bool}
    {token : Margin.Token} (h : m.token? demand block inFormat = some token) :
    m.broken = true := by
  unfold Margin.token? at h
  cases hm : m.broken with
  | false => simp [hm] at h
  | true => rfl

/-- A comment ends with its line. -/
theorem isApart_comment {c : Cursor} :
    isApart source (c.advance (commentLength c.rest)) = true := by
  apply isApart_of_rest
  rw [Cursor.advance_rest, commentLength]
  have hend := head?_drop_takeWhile (· != '\n') c.rest
  cases hhead : (c.rest.drop (c.rest.takeWhile (· != '\n')).length).head? with
  | none => rfl
  | some d =>
    rw [hhead] at hend
    obtain rfl : d = '\n' := by simpa using hend
    decide +kernel

/-- A backslash that joins lines is followed by a line feed or the end of the text. -/
theorem isApart_continuation {c : Cursor} (hc : c.IsIn source) {n : Nat}
    (h : continuationLength? c.rest = some n) : isApart source (c.advance n) = true := by
  unfold continuationLength? at h
  split at h
  · rename_i rest hrest
    obtain rfl := Option.some.inj h
    exact @isApart_advance _ _ hc ['\\', '\n'] _ hrest (by decide +kernel)
  · rename_i rest hrest
    obtain rfl := Option.some.inj h
    exact @isApart_advance _ _ hc ['\\', '\r', '\n'] _ hrest (by decide +kernel)
  · rename_i hrest
    obtain rfl := Option.some.inj h
    exact @isApart_advance _ _ hc ['\\'] [] hrest (by decide +kernel)
  · cases h

/-! ## Where a token ends -/

/-- Whether a mark ends with a character that belongs to no word. -/
def isMark (text : List Char) : Bool := text.getLast?.any (!isWordPart ·)

variable {s : State}

/-- A token of `n` characters that comes next ends where no word goes on. -/
def TakesWhole (n : Nat) (s : State) : Prop :=
  (∃ run rest, s.start.rest = run ++ rest ∧ run.length = n ∧ isMark run = true) ∨
    (s.start.rest.drop n).head?.any isWordPart = false

theorem TakesWhole.isApart {n : Nat} {s : State} (h : TakesWhole n s)
    (hstart : s.start.IsIn source) : isApart source (s.start.advance n) = true := by
  obtain ⟨run, rest, hrest, rfl, hmark⟩ | h := h
  · exact isApart_advance hstart hrest hmark
  · exact isApart_of_rest (by rwa [Cursor.advance_rest])

theorem takesWhole_of_prefix {text : List Char} (hmark : isMark text = true)
    (hat : text.isPrefixOf s.chars = true) : TakesWhole text.length s := by
  obtain ⟨rest, hrest⟩ := List.isPrefixOf_iff_prefix.mp hat
  have hne : s.chars ≠ [] := by
    intro hnil
    rw [hnil, List.append_eq_nil_iff] at hrest
    rw [hrest.1] at hmark
    cases hmark
  rw [(chars_eq hne).1] at hrest
  exact .inl ⟨text, rest, hrest.symm, rfl, hmark⟩

theorem takesWhole_of_isAt {text : String} (hat : s.isAt text = true)
    (hmark : isMark text.toList = true) : TakesWhole text.toList.length s :=
  takesWhole_of_prefix hmark hat

@[grind norm]
theorem length_chars_cons (c : Char) (cs : List Char) : (c :: cs).length = cs.length + 1 := rfl

@[grind norm]
theorem length_chars_nil : ([] : List Char).length = 0 := rfl

grind_pattern takesWhole_of_isAt => s.isAt text

/-- The marks with which constructs begin. -/
theorem isMark_openings :
    isMark "(".toList = true ∧ isMark "[".toList = true ∧ isMark "\x7b".toList = true ∧
      isMark "*".toList = true ∧ isMark "**".toList = true ∧ isMark "+".toList = true ∧
      isMark "-".toList = true ∧ isMark "~".toList = true ∧ isMark "@".toList = true ∧
      isMark ">>".toList = true ∧ isMark ".".toList = true ∧ isMark "except*".toList = true := by
  decide

/-- The word that comes next has `n` characters. -/
def TakesWord (n : Nat) (s : State) : Prop := wordOf s.chars ≠ [] ∧ (wordOf s.chars).length = n

/-- A word is read off the characters of the source. -/
theorem TakesWord.chars_eq {n : Nat} (h : TakesWord n s) :
    s.chars = s.start.rest ∧ s.ahead = .characters := by
  apply Python.chars_eq
  intro hnil
  obtain ⟨hword, _⟩ := h
  rw [hnil] at hword
  exact hword rfl

@[grind ←]
theorem TakesWord.takesWhole {n : Nat} (h : TakesWord n s) : TakesWhole n s := by
  have hrest := h.chars_eq.1
  obtain ⟨hword, hlength⟩ := h
  rw [hrest] at hword hlength
  rw [TakesWhole, ← hlength, wordOf_eq hword]
  exact .inr (head?_drop_takeWhile _ _)

theorem takesWord_of_isAtWord {w : String} (hw : s.isAtWord w = true) (hne : w ≠ "") :
    TakesWord w.toList.length s := by
  have hchars : wordOf s.chars = w.toList := by
    rw [← beq_iff_eq.mp hw, State.word, String.toList_ofList]
  rw [TakesWord, hchars]
  exact ⟨fun h => hne (String.toList_eq_nil_iff.mp h), rfl⟩

grind_pattern takesWord_of_isAtWord => s.isAtWord w

theorem takesWhole_of_isAtWord {w : String} (hw : s.isAtWord w = true) (hne : w ≠ "") :
    TakesWhole w.length s := by
  rw [← String.length_toList]
  exact (takesWord_of_isAtWord hw hne).takesWhole

@[grind norm]
theorem word_eq_iff {w : String} : s.word = w ↔ s.isAtWord w = true := beq_iff_eq.symm

/-! What comes next does not depend on the comments that wait to be taken. -/

section withoutExtras

@[grind norm]
theorem isAt_without_extras (text : String) :
    ({ s with extras := [] } : State).isAt text = s.isAt text := rfl

@[grind norm]
theorem isAtWord_without_extras (w : String) :
    ({ s with extras := [] } : State).isAtWord w = s.isAtWord w := rfl

@[grind norm]
theorem takesWhole_without_extras (n : Nat) :
    TakesWhole n { s with extras := [] } ↔ TakesWhole n s := Iff.rfl

@[grind norm]
theorem takesWord_without_extras (n : Nat) :
    TakesWord n { s with extras := [] } ↔ TakesWord n s := Iff.rfl

end withoutExtras

/-! ## Operators -/

theorem isMark_binaryOperators : ∀ operator ∈ binaryOperators, isMark operator.1.toList = true := by
  decide

theorem isMark_comparisons : ∀ mark ∈ comparisons, isMark mark.toList = true := by
  decide

theorem takesWhole_of_binaryOperator {operator : String} {power : Nat}
    (hop : binaryOperator? s.chars = some (operator, power)) :
    TakesWhole operator.length s := by
  rw [binaryOperator?] at hop
  split at hop
  · cases hop
  · have hat := List.find?_some hop
    rw [← String.length_toList]
    exact takesWhole_of_prefix (isMark_binaryOperators _ (List.mem_of_find?_eq_some hop)) hat

theorem takesWhole_of_comparison {mark : String}
    (hmark : comparison? s.chars = some mark) : TakesWhole mark.length s := by
  rw [comparison?] at hmark
  split at hmark
  · cases hmark
  · have hat := List.find?_some hmark
    rw [← String.length_toList]
    exact takesWhole_of_prefix (isMark_comparisons _ (List.mem_of_find?_eq_some hmark)) hat

theorem takesWhole_of_augmentation {sign : String}
    (hsign : augmentation? s.chars = some sign) : TakesWhole sign.length s := by
  obtain ⟨⟨operator, power⟩, _, hop⟩ := List.exists_of_findSome?_eq_some hsign
  have hlast : isMark (operator.toList ++ ['=']) = true := by
    rw [isMark, List.getLast?_concat]
    decide
  dsimp only at hop
  split at hop
  · rename_i hat
    obtain rfl := Option.some.inj hop
    rw [← String.length_toList, String.toList_append]
    exact takesWhole_of_prefix hlast hat
  · cases hop

grind_pattern takesWhole_of_binaryOperator =>
  binaryOperator? s.chars, some (operator, power)
grind_pattern takesWhole_of_comparison => comparison? s.chars, some mark
grind_pattern takesWhole_of_augmentation => augmentation? s.chars, some sign

/-! ## Finding the next token -/

theorem le_stop_look (s : State) (demand : Demand) (n : Nat) :
    s.stop.offset ≤ (s.look demand n).stop.offset := by
  induction n generalizing s with
  | zero => exact Nat.le_refl _
  | succ n ih =>
    have hextra (k l : Nat) (t : Tree) : s.stop.offset ≤ (State.look demand n { s with
        stop := (s.stop.advance k).advance l
        extras := s.extras ++ [t] }).stop.offset := by
      refine Nat.le_trans ?_ (ih _)
      rw [Cursor.advance_advance]
      exact Cursor.le_advance_offset _ _
    rw [State.look]
    dsimp only
    split
    · exact Nat.le_refl _
    · split
      · exact Nat.le_refl _
      · split
        · exact Nat.le_refl _
        · exact hextra _ _ _
        · split
          · exact hextra _ _ _
          · exact Nat.le_refl _

/-! ## The invariant -/

/-- The source that is read. Specifications find it as an instance: nothing that a parser returns
tells it. -/
class Source where
  chars : List Char

variable [Source]

/-- The state stands in the source. If `isFree` holds, no word goes on where a token of characters
comes next. -/
structure Stands (isFree : Bool) (s : State) : Prop where
  start_isIn : s.start.IsIn Source.chars
  stop_isIn : s.stop.IsIn Source.chars
  stop_le_start : s.stop.offset ≤ s.start.offset
  extras : AllFaithful Source.chars s.extras
  allExtra : AllExtra s.extras
  layout : ∀ token, s.ahead = .layout token → s.stop.rest.head?.any isWordPart = false
  isApart_start : isFree = true → s.ahead = .characters → isApart Source.chars s.start = true

namespace Stands

variable {isFree : Bool} {s : State}

@[grind →]
theorem weaken (h : Stands true s) : Stands false s :=
  { h with isApart_start := by simp }

@[grind →]
theorem faithful_extras (h : Stands isFree s) :
    AllFaithful Source.chars s.extras ∧ Nameless s.extras ∧ Unplaced s.extras ∧
      AllExtra s.extras :=
  ⟨h.extras, h.allExtra.nameless h.extras, h.allExtra.unplaced, h.allExtra⟩

/-- Nothing depends on the comments that wait to be taken. -/
@[grind ←]
theorem without_extras (h : Stands isFree s) :
    Stands isFree { s with extras := [] } :=
  { h with
    extras := allFaithful_nil
    allExtra := allExtra_nil }

/-- Nothing depends on whether text is interpolated. -/
@[grind ←]
theorem with_inFormat (h : Stands isFree s) (inFormat : Bool) :
    Stands isFree { s with inFormat := inFormat } := { h with }

end Stands

variable {isFree : Bool} {s : State}

theorem stands_look {s : State} {isFree : Bool} (demand : Demand) (n : Nat)
    (hstop : s.stop.IsIn Source.chars) (hextras : AllFaithful Source.chars s.extras)
    (hallExtra : AllExtra s.extras)
    (hfree : isFree = true → isApart Source.chars s.stop = true) :
    Stands isFree (s.look demand n) := by
  induction n generalizing s with
  | zero =>
    exact ⟨hstop, hstop, Nat.le_refl _, hextras, hallExtra, fun _ h => (nomatch h),
      fun _ h => (nomatch h)⟩
  | succ n ih =>
    rw [State.look]
    dsimp only
    have hstart (k : Nat) : (s.stop.advance k).IsIn Source.chars := hstop.advance k
    have hle (k : Nat) : s.stop.offset ≤ (s.stop.advance k).offset := Cursor.le_advance_offset _ _
    have hextra (kind : Kind) (hkind : kind ≠ .identifier) (hpath : kind ≠ .fromImport) (k l : Nat)
        (hleaf : (Tree.leaf kind (s.stop.advance k) ((s.stop.advance k).advance l)).isExtra = true)
        (hfree : isApart Source.chars ((s.stop.advance k).advance l) = true) :
        Stands isFree (State.look demand n { s with
          stop := (s.stop.advance k).advance l
          extras := s.extras ++
            [Tree.leaf kind (s.stop.advance k) ((s.stop.advance k).advance l)] }) :=
      ih ((hstart k).advance l) (allFaithful_append.mpr ⟨hextras, allFaithful_cons.mpr
        ⟨Tree.isFaithful_leaf hkind hpath _ _, allFaithful_nil⟩⟩) (hallExtra.concat_leaf _ _ hleaf)
        (fun _ => hfree)
    split
    · -- layout
      rename_i token htoken
      obtain ⟨m, hm, htoken⟩ := Option.bind_eq_some_iff.mp htoken
      exact ⟨hstop, hstop, Nat.le_refl _, hextras, hallExtra,
        fun _ _ => head_of_broken hm (broken_of_token htoken), fun _ h => (nomatch h)⟩
    · split
      · -- a string
        exact ⟨hstart _, hstop, hle _, hextras, hallExtra, fun _ h => (nomatch h),
          fun _ h => (nomatch h)⟩
      · split
        · exact ⟨hstart _, hstop, hle _, hextras, hallExtra, fun _ h => (nomatch h),
            fun _ h => (nomatch h)⟩
        · exact hextra .comment (by decide) (by decide) _ _ rfl isApart_comment
        · split
          · rename_i hlength
            exact hextra .continuation (by decide) (by decide) _ _ rfl
              (isApart_continuation (hstart _) hlength)
          · refine ⟨hstart _, hstop, hle _, hextras, hallExtra, fun _ h => (nomatch h),
              fun h _ => ?_⟩
            exact isApart_takeWhile hstop (fun _ => isWordPart_of_isFiller) (hfree h)

/-! ## What is read between two states -/

/-- From `s` to `s'` trees are read that have no names and no roles. -/
structure Passes (s : State) (ts : List Tree) (s' : State) : Prop where
  faithful : AllFaithful Source.chars ts
  nameless : Nameless ts
  unplaced : Unplaced ts
  stop_le : (s.stop.offset : ℕ∞) ≤ s'.stop.offset

/-- From `s` to `s'` trees are read, their names in order. -/
structure Reads (s : State) (ts : List Tree) (s' : State) : Prop where
  faithful : AllFaithful Source.chars ts
  past_le : pastAll ts s.stop.offset ≤ s'.stop.offset

/-- What has been read as `ts` up to `s` goes on as `us` up to `s'`. -/
structure GoesOn (ts : List Tree) (s : State) (us : List Tree) (s' : State) :
    Prop where
  faithful : AllFaithful Source.chars us
  past_le : ∀ lo, pastAll ts lo ≤ s.stop.offset → pastAll us lo ≤ s'.stop.offset

section

variable {s' : State} {ts us : List Tree}

@[grind norm]
theorem passes_iff : Passes s ts s' ↔
    AllFaithful Source.chars ts ∧ Nameless ts ∧ Unplaced ts ∧
      (s.stop.offset : ℕ∞) ≤ s'.stop.offset :=
  ⟨fun ⟨h₁, h₂, h₃, h₄⟩ => ⟨h₁, h₂, h₃, h₄⟩, fun ⟨h₁, h₂, h₃, h₄⟩ => ⟨h₁, h₂, h₃, h₄⟩⟩

@[grind norm]
theorem reads_iff : Reads s ts s' ↔
    AllFaithful Source.chars ts ∧ pastAll ts s.stop.offset ≤ s'.stop.offset :=
  ⟨fun ⟨h₁, h₂⟩ => ⟨h₁, h₂⟩, fun ⟨h₁, h₂⟩ => ⟨h₁, h₂⟩⟩

@[grind norm]
theorem goesOn_iff : GoesOn ts s us s' ↔ AllFaithful Source.chars us ∧
    ∀ lo, pastAll ts lo ≤ s.stop.offset → pastAll us lo ≤ s'.stop.offset :=
  ⟨fun ⟨h₁, h₂⟩ => ⟨h₁, h₂⟩, fun ⟨h₁, h₂⟩ => ⟨h₁, h₂⟩⟩

end

namespace Parse

@[spec]
theorem takeRaw_spec (kind : Kind) (n : Nat) (hkind : kind ≠ .identifier)
    (hpath : kind ≠ .fromImport) (s₀ : State) :
    ⦃fun s => ⌜s = s₀ ∧ Stands false s⌝⦄ takeRaw kind n
    ⦃⇓? t s' => ⌜t.kind = kind ∧ Passes s₀ [t] s' ∧ Stands false s'⌝⦄ := by
  refine triple_iff.mpr fun s t s' ⟨hs₀, hs⟩ hrun => ?_
  subst hs₀
  cases hrun
  have hstop : (s.start.advance n).IsIn Source.chars := hs.start_isIn.advance n
  refine ⟨rfl, ⟨allFaithful_cons.mpr ⟨Tree.isFaithful_leaf hkind hpath _ _, allFaithful_nil⟩,
    nameless_cons.mpr ⟨Tree.isNameless_leaf hkind _ _, nameless_nil⟩,
    unplaced_cons.mpr ⟨rfl, unplaced_nil⟩, ?_⟩,
    ⟨hstop, hstop, Nat.le_refl _, allFaithful_nil, allExtra_nil,
      fun _ h => (nomatch h), fun h => (nomatch h)⟩⟩
  exact_mod_cast Nat.le_trans hs.stop_le_start (Cursor.le_advance_offset _ _)

/-- A token's tree covers it, and the parser stands behind it. -/
theorem take_run (isFree : Bool) {kind : Kind} {n : Nat} {demand : Demand} {s s' : State} {t : Tree}
    (h : Stands false s) (hfree : isFree = true → TakesWhole n s)
    (hrun : take kind n demand s = .ok (t, s')) :
    t = .leaf kind s.start (s.start.advance n) ∧ Stands isFree s' ∧
      s.stop.offset ≤ s.start.offset ∧ (s.start.advance n).offset ≤ s'.stop.offset := by
  cases hrun
  refine ⟨rfl, ?_, h.stop_le_start, ?_⟩
  · exact stands_look demand _ (h.start_isIn.advance n) allFaithful_nil allExtra_nil
      fun hisFree => (hfree hisFree).isApart h.start_isIn
  · exact le_stop_look ⟨_, [], _, .characters, s.blocks, s.inFormat, s.fuel⟩ demand _

/-- A token that is no name is passed. -/
theorem take_passes (isFree : Bool) {kind : Kind} (hkind : kind ≠ .identifier)
    (hpath : kind ≠ .fromImport) {n : Nat} {demand : Demand} {s s' : State} {t : Tree}
    (h : Stands false s)
    (hfree : isFree = true → TakesWhole n s) (hrun : take kind n demand s = .ok (t, s')) :
    t.kind = kind ∧ Passes s [t] s' ∧ Stands isFree s' := by
  obtain ⟨rfl, hs', hstart, hstop⟩ := take_run isFree h hfree hrun
  refine ⟨rfl, ⟨allFaithful_cons.mpr ⟨Tree.isFaithful_leaf hkind hpath _ _, allFaithful_nil⟩,
    nameless_cons.mpr ⟨Tree.isNameless_leaf hkind _ _, nameless_nil⟩,
    unplaced_cons.mpr ⟨rfl, unplaced_nil⟩, ?_⟩, hs'⟩
  exact_mod_cast (Nat.le_trans hstart (Cursor.le_advance_offset n s.start)).trans hstop

@[spec]
theorem take_spec (kind : Kind) (n : Nat) (demand : Demand) (hkind : kind ≠ .identifier)
    (hpath : kind ≠ .fromImport) (s₀ : State) :
    ⦃fun s => ⌜s = s₀ ∧ Stands false s⌝⦄ take kind n demand
    ⦃⇓? t s' => ⌜t.kind = kind ∧ Passes s₀ [t] s' ∧ Stands false s'⌝⦄ :=
  triple_iff.mpr fun _ _ _ ⟨hs₀, hs⟩ hrun =>
    hs₀ ▸ take_passes false hkind hpath hs (fun h => (nomatch h)) hrun

@[spec high]
theorem take_mark_spec (n : Nat) (demand : Demand) (s₀ : State) :
    ⦃fun s => ⌜s = s₀ ∧ Stands false s ∧ TakesWhole n s⌝⦄ take .mark n demand
    ⦃⇓? t s' => ⌜t.kind = .mark ∧ Passes s₀ [t] s' ∧ Stands true s'⌝⦄ :=
  triple_iff.mpr fun _ _ _ ⟨hs₀, hs, hwhole⟩ hrun =>
    hs₀ ▸ take_passes true (by decide) (by decide) hs (fun _ => hwhole) hrun

/-- A word that is taken for a name is a whole word. -/
@[spec high]
theorem take_identifier_spec (n : Nat) (demand : Demand) (s₀ : State) :
    ⦃fun s => ⌜s = s₀ ∧ Stands true s ∧ TakesWord n s⌝⦄ take .identifier n demand
    ⦃⇓? t s' => ⌜t.kind = .identifier ∧ t.field = none ∧ Reads s₀ [t] s' ∧ Stands true s'⌝⦄ := by
  refine triple_iff.mpr fun s t s' ⟨hs₀, hs, hword⟩ hrun => ?_
  subst hs₀
  obtain ⟨rfl, hs', hstart, hstop⟩ := take_run true hs.weaken (fun _ => hword.takesWhole) hrun
  obtain ⟨hrest, hahead⟩ := hword.chars_eq
  obtain ⟨hne, hlength⟩ := hword
  rw [hrest] at hne hlength
  have hslice :
      (Tree.leaf .identifier s.start (s.start.advance n)).chars = wordOf s.start.rest := by
    rw [Tree.chars, Tree.leaf, Cursor.slice_advance, ← hlength, take_wordOf]
  have hpath : Kind.identifier ≠ .fromImport := by decide
  refine ⟨rfl, rfl,
    ⟨allFaithful_cons.mpr ⟨Tree.isFaithful_iff.mpr ⟨⟨fun _ => ?_, hasParts_nil hpath⟩,
    allFaithful_nil⟩, allFaithful_nil⟩, ?_⟩, hs'⟩
  · exact ⟨hs.start_isIn, hs.isApart_start rfl hahead, hslice, by rw [hslice]; exact hne⟩
  · rw [pastAll_singleton, Tree.past_name, behind, if_pos (by exact_mod_cast hstart)]
    exact_mod_cast hstop

@[spec]
theorem name_spec (demand : Demand) (s₀ : State) :
    ⦃fun s => ⌜s = s₀ ∧ Stands true s⌝⦄ name demand
    ⦃⇓? t s' => ⌜t.kind = .identifier ∧ t.field = none ∧ Reads s₀ [t] s' ∧ Stands true s'⌝⦄ := by
  mvcgen [name, query, require]
  rename_i s hs hword
  rw [← String.length_toList]
  exact ⟨hs.1, hs.2, takesWord_of_isAtWord (beq_self_eq_true _) (by simpa using hword)⟩

@[spec high]
theorem token_mark_spec (n : Nat) (demand : Demand) (s₀ : State) :
    ⦃fun s => ⌜s = s₀ ∧ Stands false s ∧ TakesWhole n s⌝⦄ token .mark n demand
    ⦃⇓? ts s' => ⌜Passes s₀ ts s' ∧ Stands true s'⌝⦄ := by
  mvcgen [token, extras]
  all_goals grind

@[spec]
theorem token_spec (kind : Kind) (n : Nat) (demand : Demand) (hkind : kind ≠ .identifier)
    (hpath : kind ≠ .fromImport) (s₀ : State) :
    ⦃fun s => ⌜s = s₀ ∧ Stands false s⌝⦄ token kind n demand
    ⦃⇓? ts s' => ⌜Passes s₀ ts s' ∧ Stands false s'⌝⦄ := by
  mvcgen [token, extras]
  all_goals grind

@[spec]
theorem mark_spec (text : String) (demand : Demand) (htext : isMark text.toList = true)
    (s₀ : State) :
    ⦃fun s => ⌜s = s₀ ∧ Stands false s⌝⦄ mark text demand
    ⦃⇓? ts s' => ⌜Passes s₀ ts s' ∧ Stands true s'⌝⦄ := by
  mvcgen [mark, query, require]
  rename_i s hs hat
  rw [← String.length_toList]
  exact ⟨hs.1, hs.2, takesWhole_of_isAt hat htext⟩

/-- A mark that may be missing. -/
@[spec]
theorem optional_mark_spec (text : String) (demand : Demand) (s₀ : State) :
    ⦃fun s => ⌜s = s₀ ∧ Stands false s⌝⦄ mark? text demand
    ⦃⇓? ts s' => ⌜Passes s₀ ts s' ∧ Stands false s'⌝⦄ := by
  mvcgen [mark?, query, -token_mark_spec]
  all_goals grind

@[spec]
theorem keyword_spec (word : String) (demand : Demand) (hword : word ≠ "") (s₀ : State) :
    ⦃fun s => ⌜s = s₀ ∧ Stands false s⌝⦄ keyword word demand
    ⦃⇓? ts s' => ⌜Passes s₀ ts s' ∧ Stands true s'⌝⦄ := by
  mvcgen [keyword, query, require]
  rename_i s hs hat
  exact ⟨hs.1, hs.2, takesWhole_of_isAtWord hat hword⟩

/-- Layout is where no word goes on. -/
theorem passes_layout {s : State} {token : Margin.Token} (demand : Demand) (n : Nat)
    (h : Stands false s) (hahead : s.ahead = .layout token) (blocks : List Nat) :
    Passes s [] ({ s with blocks := blocks }.look demand n) ∧
      Stands true ({ s with blocks := blocks }.look demand n) := by
  refine ⟨⟨allFaithful_nil, nameless_nil, unplaced_nil, ?_⟩, ?_⟩
  · exact_mod_cast le_stop_look { s with blocks := blocks } demand n
  · exact stands_look demand n h.stop_isIn h.extras h.allExtra fun _ =>
      isApart_of_rest (h.layout token hahead)

@[spec]
theorem lineEnd_spec (demand : Demand) (s₀ : State) :
    ⦃fun s => ⌜s = s₀ ∧ Stands false s⌝⦄ lineEnd demand
    ⦃⇓? _ s' => ⌜Passes s₀ [] s' ∧ Stands true s'⌝⦄ := by
  mvcgen [lineEnd, query, require, look]
  rename_i s hs hend _
  obtain ⟨rfl, hs⟩ := hs
  exact passes_layout demand _ hs (beq_iff_eq.mp hend) s.blocks

@[spec]
theorem indent_spec (demand : Demand) (s₀ : State) :
    ⦃fun s => ⌜s = s₀ ∧ Stands false s⌝⦄ indent demand
    ⦃⇓? _ s' => ⌜Passes s₀ [] s' ∧ Stands true s'⌝⦄ := by
  mvcgen [indent, query, look]
  · rename_i s hs width hindent _ _
    obtain ⟨rfl, hs⟩ := hs
    have hahead : s.ahead = .layout (.indent width) := by
      unfold State.indent? at hindent
      split at hindent
      · obtain rfl := Option.some.inj hindent
        assumption
      · cases hindent
    exact passes_layout demand _ hs hahead _
  · exact False.elim

@[spec]
theorem dedent_spec (demand : Demand) (s₀ : State) :
    ⦃fun s => ⌜s = s₀ ∧ Stands false s⌝⦄ dedent demand
    ⦃⇓? _ s' => ⌜Passes s₀ [] s' ∧ Stands true s'⌝⦄ := by
  mvcgen [dedent, query, require, look]
  rename_i s hs hend _ _
  obtain ⟨rfl, hs⟩ := hs
  exact passes_layout demand _ hs (beq_iff_eq.mp hend) _

@[spec]
theorem look_spec (demand : Demand) (s₀ : State) :
    ⦃fun s => ⌜s = s₀ ∧ Stands false s⌝⦄ look demand
    ⦃⇓? _ s' => ⌜Passes s₀ [] s' ∧ Stands false s'⌝⦄ := by
  refine triple_iff.mpr fun s _ s' ⟨hs₀, hs⟩ hrun => ?_
  subst hs₀
  cases hrun
  refine ⟨⟨allFaithful_nil, nameless_nil, unplaced_nil, ?_⟩,
    stands_look demand _ hs.stop_isIn hs.extras hs.allExtra
      fun h => (nomatch h)⟩
  exact_mod_cast le_stop_look _ _ _

end Parse

end SymbolAtlas.Python
