import SymbolAtlas.Proofs.Text.LineIndex
import SymbolAtlas.Text.Blank
import SymbolAtlas.Text.Matches

/-! # Patterns at the starts of lines

A pattern that matches only at the start of a line has on every line at most one match. So its
matches in a text of several lines are found line by line.
-/

namespace SymbolAtlas.Pattern

variable {α : Type} {pattern : Pattern α}

/-- The pattern matches nowhere but at the start of a text or after a line break. -/
def Anchored (pattern : Pattern α) : Prop :=
  ∀ (c : Char) (cs : List Char), isLineBreak c = false → pattern (some c) cs = none

/-- After its first character a line has no match; the characters skipped are on the line. -/
theorem matchesFrom_inLine (h : pattern.Anchored) {c : Char} (hc : isLineBreak c = false)
    {line : List Char} (hline : ∀ d ∈ line, isLineBreak d = false) {skip : Nat}
    (hskip : skip ≤ line.length) (offset : Nat) (rest : List Char) :
    ∃ d, isLineBreak d = false ∧ matchesFrom pattern offset (some c) skip (line ++ rest) =
      matchesFrom pattern (offset + utf16Length line) (some d) 0 rest := by
  induction line generalizing c skip offset with
  | nil =>
    obtain rfl : skip = 0 := Nat.le_zero.mp hskip
    exact ⟨c, hc, rfl⟩
  | cons d line ih =>
    obtain ⟨hd, hline⟩ := List.forall_mem_cons.mp hline
    rw [utf16Length_cons, ← Nat.add_assoc]
    cases skip with
    | zero =>
      obtain ⟨last, hlast, heq⟩ := ih hd hline (Nat.zero_le _) (offset + utf16Width d)
      refine ⟨last, hlast, ?_⟩
      rw [List.cons_append, matchesFrom, h c _ hc]
      exact heq
    | succ skip =>
      exact ih hd hline (Nat.le_of_succ_le_succ hskip) (offset + utf16Width d)

/-- The match at the start of a line, and then those after its end. -/
theorem matchesFrom_line (h : pattern.Anchored) {line : List Char} (hne : line ≠ [])
    (hline : ∀ c ∈ line, isLineBreak c = false) (offset : Nat) (previous : Option Char)
    (rest : List Char)
    (hmatch : ∀ m ∈ pattern previous (line ++ rest), m.2 ≤ line.length) :
    ∃ d, isLineBreak d = false ∧ matchesFrom pattern offset previous 0 (line ++ rest) =
      (pattern previous (line ++ rest)).toList.map (fun m => (offset, m.1)) ++
        matchesFrom pattern (offset + utf16Length line) (some d) 0 rest := by
  cases line with
  | nil => exact absurd rfl hne
  | cons c line =>
    obtain ⟨hc, hline⟩ := List.forall_mem_cons.mp hline
    rw [List.cons_append] at hmatch ⊢
    rw [matchesFrom, utf16Length_cons, ← Nat.add_assoc]
    cases hm : pattern previous (c :: (line ++ rest)) with
    | none =>
      exact matchesFrom_inLine h hc hline (Nat.zero_le _) (offset + utf16Width c) rest
    | some m =>
      have hlength := hmatch m hm
      rw [List.length_cons] at hlength
      have hskip : m.2 - 1 ≤ line.length := by omega
      obtain ⟨d, hd, heq⟩ := matchesFrom_inLine h hc hline hskip (offset + utf16Width c) rest
      exact ⟨d, hd, congrArg _ heq⟩

/-- At the end of a line no match begins. -/
theorem matchesFrom_lineFeed (h : pattern.Anchored) {c : Char} (hc : isLineBreak c = false)
    (offset : Nat) (rest : List Char) :
    matchesFrom pattern offset (some c) 0 ('\n' :: rest) =
      matchesFrom pattern (offset + 1) (some '\n') 0 rest := by
  rw [matchesFrom, h c _ hc]
  rfl

end SymbolAtlas.Pattern
