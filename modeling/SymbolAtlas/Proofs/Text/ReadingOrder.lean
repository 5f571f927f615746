import Mathlib.Data.List.Basic
import SymbolAtlas.Proofs.Text.Cursor
import SymbolAtlas.Proofs.Text.LineIndex

/-! # Reading order

To read on is to get to a later place: on a later line, or further on in the same line. So a place
in a text tells what stands before it, and places of a text are in order as their offsets are.
-/

namespace SymbolAtlas

namespace Position

theorem before_iff {p q : Position} :
    p.before q = true ↔ p.line < q.line ∨ p.line = q.line ∧ p.column < q.column := by
  simp [before]

theorem before_trans {p q r : Position} (h : p.before q = true) (h' : q.before r = true) :
    p.before r = true := by
  rw [before_iff] at *
  omega

theorem ne_of_before {p q : Position} (h : p.before q = true) : p ≠ q := by
  rintro rfl
  rw [before_iff] at h
  omega

theorem before_next (p : Position) (c : Char) : p.before (p.next c) = true := by
  have hwidth := utf16Width_pos c
  rw [before_iff]
  by_cases hc : c = '\n'
  · rw [next, if_pos hc]
    exact .inl (Int.lt_add_one_of_le (Int.le_refl _))
  · rw [next, if_neg hc]
    exact .inr ⟨rfl, Int.lt_add_of_pos_right _ (Int.natCast_pos.mpr hwidth)⟩

theorem before_after {cs : List Char} (hne : cs ≠ []) (p : Position) :
    p.before (p.after cs) = true := by
  induction cs generalizing p with
  | nil => exact absurd rfl hne
  | cons c cs ih =>
    rw [after_cons]
    cases cs with
    | nil => exact before_next p c
    | cons d cs => exact before_trans (before_next p c) (ih (List.cons_ne_nil d cs) _)

/-- Reading more of a text leads to a later place. -/
theorem before_after_take {cs : List Char} {a b : Nat} (h : a < b) (hb : b ≤ cs.length)
    (p : Position) : (p.after (cs.take a)).before (p.after (cs.take b)) = true := by
  have hne : (cs.drop a).take (b - a) ≠ [] := by
    rw [← List.length_pos_iff, List.length_take, List.length_drop]
    omega
  have hsplit : cs.take b = cs.take a ++ (cs.drop a).take (b - a) := by
    rw [← List.take_add, Nat.add_sub_cancel' (Nat.le_of_lt h)]
  rw [hsplit, after_append]
  exact before_after hne _

/-- A place of a text determines what stands before it. -/
theorem eq_of_after_eq {xs ys xs' ys' : List Char} (happend : xs ++ xs' = ys ++ ys')
    {p : Position} (h : p.after xs = p.after ys) : xs = ys := by
  have extends_nil {us vs : List Char} (heq : p.after us = p.after (us ++ vs)) : vs = [] := by
    by_contra hne
    have hbefore := before_after hne (p.after us)
    rw [← after_append, ← heq, before_iff] at hbefore
    omega
  rcases List.append_eq_append_iff.mp happend with ⟨more, rfl, -⟩ | ⟨more, rfl, -⟩
  · rw [extends_nil h, List.append_nil]
  · rw [extends_nil h.symm, List.append_nil]

end Position

/-- Of two places in a text the one with fewer characters before it comes first. -/
theorem Cursor.IsIn.before_of_lt {source : List Char} {c d : Cursor} (hc : c.IsIn source)
    (hd : d.IsIn source) (h : c.offset < d.offset) : c.position.before d.position = true := by
  rw [hc.position_eq, hd.position_eq]
  exact Position.before_after_take h hd.offset_le _

end SymbolAtlas
