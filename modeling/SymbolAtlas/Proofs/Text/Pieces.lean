import SymbolAtlas.Proofs.Text.LineIndex
import SymbolAtlas.Text.Blank

/-! # Cutting and joining texts

A text is its pieces joined again, and pieces without a separator are told apart again after they
are joined by it. As many units as a text has are dropped from its head exactly when the text is.
-/

namespace SymbolAtlas

theorem map_replace_of_not_mem {old new : Char} {cs : List Char} (h : old ∉ cs) :
    (cs.map fun c => if c = old then new else c) = cs := by
  have hsame : ∀ c ∈ cs, (if c = old then new else c) = c := by
    intro c hc
    rw [if_neg]
    rintro rfl
    exact h hc
  rw [List.map_congr_left hsame, List.map_id']

/-- Cutting a text is the library's cutting of a list. -/
theorem splitAt_eq_splitOn (separator : Char) (cs : List Char) :
    splitAt separator cs = cs.splitOn separator := by
  induction cs with
  | nil => exact (List.splitOn_nil separator).symm
  | cons c cs ih =>
    obtain ⟨piece, pieces, hcs⟩ := List.exists_cons_of_ne_nil (List.splitOn_ne_nil separator cs)
    rw [splitAt, List.splitOn_cons_eq_if_modifyHead, ih, hcs]
    simp only [beq_iff_eq, List.modifyHead_cons]

theorem joinWith_eq_intercalate (separator : List Char) (pieces : List (List Char)) :
    joinWith separator pieces = separator.intercalate pieces := rfl

theorem exists_splitAt (separator : Char) (cs : List Char) :
    ∃ piece pieces, splitAt separator cs = piece :: pieces := by
  rw [splitAt_eq_splitOn]
  exact List.exists_cons_of_ne_nil (List.splitOn_ne_nil separator cs)

theorem splitAt_cons_of_ne {separator c : Char} (hc : c ≠ separator) {cs piece : List Char}
    {pieces : List (List Char)} (h : splitAt separator cs = piece :: pieces) :
    splitAt separator (c :: cs) = (c :: piece) :: pieces := by
  simp only [splitAt, if_neg hc, h]

theorem splitAt_of_not_mem {separator : Char} {cs : List Char} (h : separator ∉ cs) :
    splitAt separator cs = [cs] := by
  rw [splitAt_eq_splitOn, List.splitOn_eq_singleton h]

/-- A text can be split at any separator, and then on both sides of it. -/
theorem splitAt_append (separator : Char) (cs ds : List Char) :
    splitAt separator (cs ++ separator :: ds) = splitAt separator cs ++ splitAt separator ds := by
  simp only [splitAt_eq_splitOn, List.splitOn_append_cons_self]

/-- Joined again by the separator, the pieces of a text are the text. -/
theorem joinWith_splitAt (separator : Char) (cs : List Char) :
    joinWith [separator] (splitAt separator cs) = cs := by
  rw [joinWith_eq_intercalate, splitAt_eq_splitOn, List.intercalate_splitOn]

theorem not_mem_of_mem_splitAt {separator : Char} {cs piece : List Char}
    (h : piece ∈ splitAt separator cs) : separator ∉ piece := by
  induction cs generalizing piece with
  | nil =>
    cases List.mem_singleton.mp h
    exact List.not_mem_nil
  | cons c cs ih =>
    by_cases hc : c = separator
    · rw [splitAt, if_pos hc, List.mem_cons] at h
      rcases h with rfl | h
      · exact List.not_mem_nil
      · exact ih h
    · obtain ⟨first, pieces, hcs⟩ := exists_splitAt separator cs
      rw [splitAt_cons_of_ne hc hcs, List.mem_cons] at h
      rw [hcs] at ih
      rcases h with rfl | h
      · rw [List.mem_cons, not_or]
        exact ⟨Ne.symm hc, ih List.mem_cons_self⟩
      · exact ih (List.mem_cons_of_mem first h)

theorem joinWith_singleton (separator piece : List Char) : joinWith separator [piece] = piece :=
  List.intercalate_singleton

theorem joinWith_cons {pieces : List (List Char)} (h : pieces ≠ []) (separator piece : List Char) :
    joinWith separator (piece :: pieces) = piece ++ separator ++ joinWith separator pieces :=
  List.intercalate_cons_of_ne_nil h

theorem mem_joinWith {separator : List Char} {pieces : List (List Char)} {c : Char}
    (h : c ∈ joinWith separator pieces) : c ∈ separator ∨ ∃ piece ∈ pieces, c ∈ piece := by
  induction pieces with
  | nil => exact absurd h List.not_mem_nil
  | cons piece pieces ih =>
    by_cases hnil : pieces = []
    · rw [hnil, joinWith_singleton] at h
      exact .inr ⟨piece, List.mem_cons_self, h⟩
    · rw [joinWith_cons hnil, List.mem_append, List.mem_append] at h
      rcases h with (h | h) | h
      · exact .inr ⟨piece, List.mem_cons_self, h⟩
      · exact .inl h
      · rcases ih h with h | ⟨p, hp, hc⟩
        · exact .inl h
        · exact .inr ⟨p, List.mem_cons_of_mem piece hp, hc⟩

theorem mem_joinWith_of_mem {separator piece : List Char} {pieces : List (List Char)} {c : Char}
    (h : piece ∈ pieces) (hc : c ∈ piece) : c ∈ joinWith separator pieces := by
  induction pieces with
  | nil => exact absurd h List.not_mem_nil
  | cons first pieces ih =>
    by_cases hnil : pieces = []
    · subst hnil
      rw [joinWith_singleton, ← List.mem_singleton.mp h]
      exact hc
    · rw [joinWith_cons hnil, List.append_assoc, List.mem_append, List.mem_append]
      rcases List.mem_cons.mp h with rfl | h
      · exact .inl hc
      · exact .inr (.inr (ih h))

/-- The characters of a piece are characters of the text. -/
theorem mem_of_mem_splitAt {separator c : Char} {cs piece : List Char}
    (h : piece ∈ splitAt separator cs) (hc : c ∈ piece) : c ∈ cs := by
  obtain ⟨before, after, hsplit⟩ := List.append_of_mem h
  rw [← joinWith_splitAt separator cs, hsplit]
  exact mem_joinWith_of_mem (List.mem_append_right before List.mem_cons_self) hc

theorem joinWith_append {pieces more : List (List Char)} (h : pieces ≠ []) (hmore : more ≠ [])
    (separator : List Char) :
    joinWith separator (pieces ++ more) =
      joinWith separator pieces ++ separator ++ joinWith separator more := by
  induction pieces with
  | nil => exact absurd rfl h
  | cons piece pieces ih =>
    by_cases hnil : pieces = []
    · rw [hnil, List.singleton_append, joinWith_cons hmore, joinWith_singleton]
    · rw [List.cons_append, joinWith_cons (by simp [hmore]), ih hnil, joinWith_cons hnil]
      simp only [List.append_assoc]

theorem joinWith_concat {pieces : List (List Char)} (h : pieces ≠ [])
    (separator piece : List Char) :
    joinWith separator (pieces ++ [piece]) = joinWith separator pieces ++ separator ++ piece := by
  rw [joinWith_append h (List.cons_ne_nil _ _), joinWith_singleton]

theorem joinWith_cons_eq (separator : List Char) (c : Char) (cs : List Char)
    (pieces : List (List Char)) :
    ∃ rest, joinWith separator ((c :: cs) :: pieces) = c :: rest := by
  by_cases hnil : pieces = []
  · exact ⟨cs, by rw [hnil, joinWith_singleton]⟩
  · exact ⟨_, by rw [joinWith_cons hnil, List.append_assoc, List.cons_append]⟩

theorem getLast?_joinWith_concat (separator : List Char) (pieces : List (List Char))
    {piece : List Char} (h : piece ≠ []) :
    (joinWith separator (pieces ++ [piece])).getLast? = piece.getLast? := by
  by_cases hnil : pieces = []
  · rw [hnil, List.nil_append, joinWith_singleton]
  · rw [joinWith_concat hnil, List.getLast?_append, List.getLast?_eq_some_getLast h,
      Option.some_or]

/-- Joined pieces are told apart by a separator that none of them holds. -/
theorem splitAt_joinWith {separator : Char} {pieces : List (List Char)} (hne : pieces ≠ [])
    (h : ∀ piece ∈ pieces, separator ∉ piece) :
    splitAt separator (joinWith [separator] pieces) = pieces := by
  rw [splitAt_eq_splitOn, joinWith_eq_intercalate, List.splitOn_intercalate separator h hne]

theorem utf16Length_reverse (cs : List Char) : utf16Length cs.reverse = utf16Length cs := by
  induction cs with
  | nil => rfl
  | cons c cs ih =>
    rw [List.reverse_cons, utf16Length_append, ih, utf16Length_cons, utf16Length_cons,
      utf16Length_nil, Nat.add_zero, Nat.add_comm]

theorem dropUnits_zero (cs : List Char) : dropUnits 0 cs = cs := by
  cases cs <;> rfl

/-- As many units as a text has are exactly the text. -/
theorem dropUnits_append (cs ds : List Char) : dropUnits (utf16Length cs) (cs ++ ds) = ds := by
  induction cs with
  | nil => exact dropUnits_zero ds
  | cons c cs ih =>
    obtain ⟨n, hn⟩ := Nat.exists_eq_add_of_lt (utf16Width_pos c)
    rw [utf16Length_cons, List.cons_append]
    have hunits : utf16Width c + utf16Length cs = (n + utf16Length cs) + 1 := by omega
    rw [hunits, dropUnits, ← hunits, Nat.add_sub_cancel_left, ih]

end SymbolAtlas
