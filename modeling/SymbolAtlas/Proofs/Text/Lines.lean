import Mathlib.Data.List.Induction
import SymbolAtlas.Proofs.Text.Pieces
import SymbolAtlas.Text.Matches

/-! # Lines of a text

A place in a text is on the line on which the text before it ends. Its position counts the lines
before that one and the units of the line that are behind.
-/

namespace SymbolAtlas

theorem splitAt_append_of_not_mem {separator : Char} {cs ds piece : List Char}
    {pieces : List (List Char)} (h : separator ∉ cs)
    (hds : splitAt separator ds = piece :: pieces) :
    splitAt separator (cs ++ ds) = (cs ++ piece) :: pieces := by
  induction cs with
  | nil => exact hds
  | cons c cs ih =>
    rw [List.mem_cons, not_or] at h
    exact splitAt_cons_of_ne (Ne.symm h.1) (ih h.2)

theorem prefix_of_splitAt {separator : Char} {cs piece : List Char} {pieces : List (List Char)}
    (h : splitAt separator cs = piece :: pieces) : piece <+: cs := by
  induction cs generalizing piece pieces with
  | nil =>
    cases h
    exact List.prefix_rfl
  | cons c cs ih =>
    by_cases hc : c = separator
    · rw [splitAt, if_pos hc] at h
      cases h
      exact List.nil_prefix
    · obtain ⟨piece', pieces', hcs⟩ := exists_splitAt separator cs
      rw [splitAt_cons_of_ne hc hcs] at h
      cases h
      exact List.cons_prefix_cons.mpr ⟨rfl, ih hcs⟩

/-- The lines that end in a text, and the head of the line in which the text ends. Its position
counts them, and whatever follows goes on from there. -/
theorem exists_lines (before : List Char) :
    ∃ (lines : List (List Char)) (head : List Char), head <:+ before ∧
      Position.start.after before = ⟨lines.length + 1, utf16Length head + 1⟩ ∧
      ∀ rest tail tails, splitAt '\n' rest = tail :: tails →
        splitAt '\n' (before ++ rest) = lines ++ (head ++ tail) :: tails := by
  induction before using List.reverseRecOn with
  | nil => exact ⟨[], [], List.suffix_rfl, rfl, fun _ _ _ h => h⟩
  | append_singleton before c ih =>
    obtain ⟨lines, head, hsuffix, hposition, hsplit⟩ := ih
    have hnext : Position.start.after (before ++ [c]) =
        Position.next ⟨lines.length + 1, utf16Length head + 1⟩ c := by
      rw [Position.after_append, hposition]
      rfl
    simp only [List.append_assoc, List.singleton_append, hnext]
    by_cases hc : c = '\n'
    · subst hc
      refine ⟨lines ++ [head], [], List.nil_suffix, ?_, fun rest tail tails h => ?_⟩
      · simp [Position.next]
      · have hrest : splitAt '\n' ('\n' :: rest) = [] :: tail :: tails := by
          rw [splitAt, if_pos rfl, h]
        rw [hsplit _ _ _ hrest]
        simp
    · obtain ⟨earlier, rfl⟩ := hsuffix
      refine ⟨lines, head ++ [c], ⟨earlier, (List.append_assoc _ _ _).symm⟩, ?_,
        fun rest tail tails h => ?_⟩
      · rw [Position.next, if_neg hc, utf16Length_append]
        simp only [utf16Length_cons, utf16Length_nil, Position.mk.injEq, true_and]
        omega
      · rw [hsplit _ _ _ (splitAt_cons_of_ne hc h)]
        simp

/-- A text without line feeds stands on one line, with the end of what is before it and the beginning
of what is after it. -/
theorem exists_line_around {text : List Char} (htext : '\n' ∉ text) (before after : List Char) :
    ∃ (i : Nat) (head tail : List Char),
      (splitAt '\n' (before ++ (text ++ after)))[i]? = some (head ++ (text ++ tail)) ∧
      Position.start.after before = ⟨i + 1, utf16Length head + 1⟩ ∧ head <:+ before ∧
      tail <+: after := by
  obtain ⟨tail, tails, htail⟩ := exists_splitAt '\n' after
  obtain ⟨lines, head, hsuffix, hposition, hsplit⟩ := exists_lines before
  refine ⟨lines.length, head, tail, ?_, hposition, hsuffix, prefix_of_splitAt htail⟩
  rw [hsplit _ _ _ (splitAt_append_of_not_mem htext htail),
    List.getElem?_append_right (Nat.le_refl _), Nat.sub_self]
  rfl

theorem utf16Length_of_ascii {cs : List Char} (h : ∀ c ∈ cs, c.toNat < 0x80) :
    utf16Length cs = cs.length := by
  induction cs with
  | nil => rfl
  | cons c cs ih =>
    obtain ⟨hc, hcs⟩ := List.forall_mem_cons.mp h
    have hwidth : utf16Width c = 1 := if_pos (Nat.lt_of_lt_of_le hc (by decide))
    rw [utf16Length_cons, hwidth, ih hcs, List.length_cons, Nat.add_comm]

namespace Pattern

variable {α : Type} {pattern : Pattern α}

/-- A match begins in the text. -/
theorem lt_of_mem_matchesFrom {offset : Nat} {previous : Option Char} {skip : Nat}
    {cs : List Char} {m : Nat × α} (h : m ∈ matchesFrom pattern offset previous skip cs) :
    m.1 < offset + utf16Length cs := by
  induction cs generalizing offset previous skip with
  | nil =>
    rw [matchesFrom] at h
    cases h
  | cons c cs ih =>
    have hwidth := utf16Width_pos c
    rw [utf16Length_cons]
    have htail {k} (h : m ∈ matchesFrom pattern (offset + utf16Width c) (some c) k cs) :
        m.1 < offset + (utf16Width c + utf16Length cs) := by
      have := ih h
      omega
    cases skip with
    | succ skip => exact htail h
    | zero =>
      rw [matchesFrom] at h
      split at h
      · rcases List.mem_cons.mp h with rfl | h
        · show offset < _
          omega
        · exact htail h
      · exact htail h

end Pattern
end SymbolAtlas
