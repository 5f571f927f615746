import Mathlib.Data.Option.Basic
import SymbolAtlas.Proofs.Text.Cursor
import SymbolAtlas.Proofs.Text.Sweep
import SymbolAtlas.Script.RequireCall

/-! # What is taken for a `require` call in a text

A call is the word `require`, whatever stands before it, a quoted argument that is not empty, and
the brackets around it, with blanks between any of these. The calls of a text are found by sweeping
it.
-/

namespace SymbolAtlas.Script

/-- The text is a `require` call with the argument `source`. -/
inductive CallText : List Char → String → Prop
  | mk {a b c : List Char} {opening closing : Char} {source : String}
      (blank : ∀ d ∈ a ++ b ++ c, isBlank d = true)
      (quotes : isQuoteMark opening = true ∧ isQuoteMark closing = true)
      (source_ne : source.toList ≠ []) (unquoted : ∀ d ∈ source.toList, isQuoteMark d = false) :
      CallText ("require".toList ++ (a ++ '(' :: (b ++ opening :: (source.toList ++
        closing :: (c ++ [')']))))) source

/-! ## The pattern -/

theorem markAfterBlanks_eq_some_iff {test : Char → Bool} {cs rest : List Char} {n : Nat}
    (htest : ∀ c, test c = true → isBlank c = false) :
    markAfterBlanks test cs = some (n, rest) ↔
      ∃ blanks c, cs = blanks ++ c :: rest ∧ (∀ d ∈ blanks, isBlank d = true) ∧ test c = true ∧
        n = blanks.length + 1 := by
  constructor
  · intro h
    have hsplit := takeWhile_append_drop isBlank cs
    simp only [markAfterBlanks] at h
    split at h
    · next c rest' hdrop =>
      split at h
      · next hc =>
        obtain ⟨rfl, rfl⟩ := Prod.mk.inj (Option.some.inj h)
        rw [hdrop] at hsplit
        exact ⟨_, c, hsplit.symm, List.all_eq_true.mp List.all_takeWhile, hc, rfl⟩
      · cases h
    · cases h
  · rintro ⟨blanks, c, rfl, hblanks, hc, rfl⟩
    simp [markAfterBlanks, takeWhile_append_cons hblanks (htest c hc), hc]

theorem isBlank_of_isQuoteMark {c : Char} (h : isQuoteMark c = true) : isBlank c = false := by
  rw [isQuoteMark, Bool.or_eq_true, beq_iff_eq, beq_iff_eq] at h
  rcases h with rfl | rfl <;> decide

theorem isBlank_of_beq {c d : Char} (hd : isBlank d = false) (h : (c == d) = true) :
    isBlank c = false := by
  rwa [beq_iff_eq.mp h]

theorem isBlank_of_paren (c : Char) (h : (c == '(') = true) : isBlank c = false :=
  isBlank_of_beq (by decide) h

theorem isBlank_of_closingParen (c : Char) (h : (c == ')') = true) : isBlank c = false :=
  isBlank_of_beq (by decide) h

theorem exists_callText {previous : Option Char} {cs : List Char} {source : String} {n : Nat}
    (h : requireCall previous cs = some (source, n)) :
    ∃ text rest, cs = text ++ rest ∧ text.length = n ∧ CallText text source := by
  simp only [requireCall, Option.bind_eq_bind, Option.bind_eq_some_iff, Option.guard_eq_some',
    Prod.exists, markAfterBlanks_eq_some_iff isBlank_of_paren,
    markAfterBlanks_eq_some_iff (fun _ => isBlank_of_isQuoteMark)] at h
  obtain ⟨_, hname, _, _, ⟨a, _, hdrop, ha, hparen, rfl⟩, _, inner,
    ⟨b, opening, rfl, hb, hopening, rfl⟩, _, hne, hargument⟩ := h
  have hsplit := takeWhile_append_drop (!isQuoteMark ·) inner
  have hunquoted : ∀ d ∈ inner.takeWhile (!isQuoteMark ·), isQuoteMark d = false := fun d hd =>
    Bool.not_eq_true' _ ▸ List.all_eq_true.mp List.all_takeWhile d hd
  generalize inner.takeWhile (!isQuoteMark ·) = argument at *
  obtain ⟨after, rfl⟩ := List.isPrefixOf_iff_prefix.mp hname
  rw [List.drop_left] at hdrop
  split at hargument
  case h_2 => cases hargument
  next closing rest hrest =>
  simp only [Option.bind_eq_some_iff, Option.guard_eq_some', Prod.exists,
    markAfterBlanks_eq_some_iff isBlank_of_closingParen] at hargument
  obtain ⟨_, hclosing, _, rest, ⟨c, _, rfl, hc, hend, rfl⟩, hresult⟩ := hargument
  obtain ⟨rfl, rfl⟩ := Prod.mk.inj (Option.some.inj hresult)
  obtain rfl := beq_iff_eq.mp hparen
  obtain rfl := beq_iff_eq.mp hend
  rw [hrest] at hsplit
  subst hsplit
  refine ⟨_, rest, ?_, ?_, @CallText.mk a b c opening closing (String.ofList argument) ?_
    ⟨hopening, hclosing⟩ ?_ ?_⟩
  · simp [hdrop, String.toList_ofList]
  · simp
    omega
  · simp only [List.mem_append]
    rintro d ((hd | hd) | hd)
    · exact ha d hd
    · exact hb d hd
    · exact hc d hd
  · rw [String.toList_ofList]
    simpa using hne
  · rw [String.toList_ofList]
    exact hunquoted

theorem requireCall_append {text : List Char} {source : String} (h : CallText text source)
    (previous : Option Char) (rest : List Char) :
    requireCall previous (text ++ rest) = some (source, text.length) := by
  obtain @⟨a, b, c, opening, closing, source, hblank, ⟨hopening, hclosing⟩, hne, hun⟩ := h
  simp only [List.mem_append] at hblank
  have hparen (cs : List Char) :
      markAfterBlanks (· == '(') (a ++ '(' :: cs) = some (a.length + 1, cs) :=
    (markAfterBlanks_eq_some_iff isBlank_of_paren).mpr
      ⟨a, '(', rfl, fun d hd => hblank d (.inl (.inl hd)), rfl, rfl⟩
  have hquote (cs : List Char) :
      markAfterBlanks isQuoteMark (b ++ opening :: cs) = some (b.length + 1, cs) :=
    (markAfterBlanks_eq_some_iff fun _ => isBlank_of_isQuoteMark).mpr
      ⟨b, opening, rfl, fun d hd => hblank d (.inl (.inr hd)), hopening, rfl⟩
  have hend (cs : List Char) :
      markAfterBlanks (· == ')') (c ++ ')' :: cs) = some (c.length + 1, cs) :=
    (markAfterBlanks_eq_some_iff isBlank_of_closingParen).mpr
      ⟨c, ')', rfl, fun d hd => hblank d (.inr hd), rfl, rfl⟩
  have hargument (cs : List Char) :
      (source.toList ++ closing :: cs).takeWhile (!isQuoteMark ·) = source.toList :=
    takeWhile_append_cons (fun d hd => by rw [hun d hd]; rfl) (by rw [hclosing]; rfl)
  have pass {p : Prop} [Decidable p] (h : p) : guard p = some () :=
    (Option.guard_eq_some' ()).mpr h
  have hname (cs : List Char) :
      guard ("require".toList.isPrefixOf ("require".toList ++ cs) = true) = some () :=
    pass (List.isPrefixOf_iff_prefix.mpr (List.prefix_append _ cs))
  have hnonempty : guard ((!source.toList.isEmpty) = true) = some () :=
    pass (by rw [List.isEmpty_eq_false_iff.mpr hne]; rfl)
  simp only [List.append_assoc, List.cons_append, List.nil_append, requireCall, hname,
    List.drop_left, hparen, hquote, hargument, hend, pass hclosing, hnonempty,
    Option.bind_eq_bind, Option.pure_def, Option.bind_some, String.ofList_toList,
    List.length_append, List.length_cons, List.length_nil, Option.some.injEq, Prod.mk.injEq,
    true_and]
  omega

theorem requireCall_eq_some_iff {previous : Option Char} {cs : List Char} {source : String}
    {n : Nat} :
    requireCall previous cs = some (source, n) ↔
      ∃ text rest, cs = text ++ rest ∧ text.length = n ∧ CallText text source := by
  constructor
  · exact exists_callText
  · rintro ⟨text, rest, rfl, rfl, h⟩
    exact requireCall_append h previous rest

theorem paren_mem_of_callText {text : List Char} {source : String} (h : CallText text source) :
    '(' ∈ text := by
  cases h
  exact List.mem_append_right _ (List.mem_append_right _ List.mem_cons_self)

theorem looksAhead_requireCall : requireCall.LooksAhead where
  forward _ _ _ := rfl
  pos h := by
    obtain ⟨text, _, _, rfl, hcall⟩ := exists_callText h
    exact List.length_pos_of_mem (paren_mem_of_callText hcall)
  le h := by
    obtain ⟨text, rest, rfl, rfl, _⟩ := exists_callText h
    rw [List.length_append]
    exact Nat.le_add_right _ _

/-! ## The calls of a text -/

def IsCallAt (content : List Char) (m : Occurrence String) : Prop :=
  ∃ text rest, content.drop m.start = text ++ rest ∧ text.length = m.length ∧ CallText text m.value

/-- The import that a call in the text makes, at the place where the call begins. -/
def callImport (content : String) (m : Occurrence String) : Import :=
  ⟨.requireCall, m.value, Position.start.after (content.toList.take m.start)⟩

/-- The imports of the calls in a text are found by sweeping it. -/
theorem textImports_sweep (content : String) :
    ∃ calls, textImports content = calls.map (callImport content) ∧
      IsSweep (IsCallAt content.toList) calls := by
  obtain ⟨calls, hcalls, hsweep⟩ :=
    Pattern.matchesIn_sweep looksAhead_requireCall content.toList
  have hoccurs (m : Occurrence String) :
      requireCall.OccursIn content.toList m ↔ IsCallAt content.toList m := requireCall_eq_some_iff
  refine ⟨calls, ?_, ⟨fun m hm => (hoccurs m).mp (hsweep.occurs m hm), hsweep.ordered,
    fun m hm => hsweep.complete m ((hoccurs m).mpr hm)⟩⟩
  rw [textImports, hcalls, List.map_map]
  refine List.map_congr_left fun m _ => ?_
  have hlocate := LineIndex.locate_prefix (content.toList.take m.start)
    (content.toList.drop m.start)
  rw [List.take_append_drop] at hlocate
  simp only [Function.comp_apply, hlocate, callImport]

/-- A text without parentheses has no `require` call. -/
theorem textImports_eq_nil {content : String} (h : '(' ∉ content.toList) :
    textImports content = [] := by
  obtain ⟨calls, hcalls, hsweep⟩ := textImports_sweep content
  cases calls with
  | nil => exact hcalls
  | cons m calls =>
    obtain ⟨text, rest, hdrop, -, hcall⟩ := hsweep.occurs m List.mem_cons_self
    have hmem : '(' ∈ content.toList.drop m.start :=
      hdrop ▸ List.mem_append_left rest (paren_mem_of_callText hcall)
    exact absurd (List.mem_of_mem_drop hmem) h

end SymbolAtlas.Script
