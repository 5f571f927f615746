import SymbolAtlas.Text.Position

/-! # Cursors of a text

A cursor belongs to a text when what it holds can be read off the text and the cursor's offset.
Stepping on keeps this, and the slice between two cursors of one text is a slice of the text.
-/

namespace SymbolAtlas

/-! ## Runs of characters -/

/-- What comes last in a list, or before it, does so when one more is put before the list. -/
theorem getLast?_cons_or {α : Type} (a : α) (l : List α) (previous : Option α) :
    (a :: l).getLast?.or previous = l.getLast?.or (some a) := by
  rw [List.getLast?_cons]
  cases l.getLast? <;> rfl

theorem takeWhile_append_drop (p : Char → Bool) (cs : List Char) :
    cs.takeWhile p ++ cs.drop (cs.takeWhile p).length = cs := by
  have htake : cs.takeWhile p = cs.take (cs.takeWhile p).length :=
    List.prefix_iff_eq_take.mp (List.takeWhile_prefix p)
  exact (congrArg (· ++ _) htake).trans (List.take_append_drop _ cs)

theorem takeWhile_append_cons {p : Char → Bool} {cs rest : List Char} {c : Char}
    (hcs : ∀ d ∈ cs, p d = true) (hc : p c = false) : (cs ++ c :: rest).takeWhile p = cs := by
  rw [List.takeWhile_append_of_pos hcs, List.takeWhile_cons_of_neg (Bool.eq_false_iff.mp hc),
    List.append_nil]

theorem head?_drop_takeWhile (p : Char → Bool) (cs : List Char) :
    (cs.drop (cs.takeWhile p).length).head?.any p = false := by
  induction cs with
  | nil => rfl
  | cons c cs ih =>
    by_cases hc : p c = true
    · rw [List.takeWhile_cons_of_pos hc, List.length_cons, List.drop_succ_cons]
      exact ih
    · rw [List.takeWhile_cons_of_neg hc]
      simpa using hc

/-! ## Cursors -/

namespace Cursor

/-- The cursor stands in the text `source`: its rest and its position are those at its offset. -/
structure IsIn (source : List Char) (c : Cursor) : Prop where
  offset_le : c.offset ≤ source.length
  rest_eq : c.rest = source.drop c.offset
  position_eq : c.position = Position.start.after (source.take c.offset)

theorem ofList_isIn (source : List Char) : (ofList source).IsIn source :=
  ⟨Nat.zero_le _, rfl, rfl⟩

theorem advance_offset (n : Nat) (c : Cursor) :
    (c.advance n).offset = c.offset + min n c.rest.length := by
  induction n generalizing c with
  | zero => simp [advance]
  | succ n ih =>
    obtain ⟨o, p, rest⟩ := c
    cases rest with
    | nil => simp [advance]
    | cons ch cs =>
      simp only [advance, ih, List.length_cons]
      omega

theorem advance_advance (m n : Nat) (c : Cursor) : (c.advance m).advance n = c.advance (m + n) := by
  induction m generalizing c with
  | zero => simp [advance]
  | succ m ih =>
    obtain ⟨o, p, rest⟩ := c
    rw [Nat.add_right_comm]
    cases rest with
    | nil => cases n <;> simp [advance]
    | cons ch cs => simp [advance, ih]

theorem slice_self (c : Cursor) : c.slice c = [] := by
  rw [slice, Nat.sub_self, List.take_zero]

/-- What a slice begins with is what comes next. -/
theorem head?_rest {c stop : Cursor} {ch : Char} {cs : List Char} (h : c.slice stop = ch :: cs) :
    c.rest.head? = some ch := by
  have hmem : (c.slice stop).head? = some ch := by rw [h, List.head?_cons]
  rw [slice, List.head?_take] at hmem
  split at hmem
  · cases hmem
  · exact hmem

theorem slice_advance (n : Nat) (c : Cursor) : c.slice (c.advance n) = c.rest.take n := by
  rw [slice, advance_offset, Nat.add_sub_cancel_left, ← List.take_eq_take_min]

theorem advance_rest_length (n : Nat) (c : Cursor) :
    (c.advance n).rest.length = c.rest.length - n := by
  rw [advance_rest, List.length_drop]

/-- Stepping over at least one character that is there gets strictly further. -/
theorem lt_advance_offset {n : Nat} {c : Cursor} {ch : Char} {cs : List Char} (hn : 0 < n)
    (hc : c.rest = ch :: cs) : c.offset < (c.advance n).offset := by
  rw [advance_offset, hc, List.length_cons]
  omega

theorem le_advance_offset (n : Nat) (c : Cursor) : c.offset ≤ (c.advance n).offset := by
  rw [advance_offset]
  omega

theorem advance_rest_length_lt {n : Nat} {c : Cursor} {ch : Char} {cs : List Char} (hn : 0 < n)
    (hc : c.rest = ch :: cs) : (c.advance n).rest.length < c.rest.length := by
  rw [advance_rest_length, hc, List.length_cons]
  omega

/-- Stepping on from `c` may lead to `stop`. -/
def Reaches (c stop : Cursor) : Prop := ∃ n, stop = c.advance n

namespace Reaches

variable {c mid stop : Cursor}

theorem refl (c : Cursor) : c.Reaches c := ⟨0, rfl⟩

theorem advance (c : Cursor) (n : Nat) : c.Reaches (c.advance n) := ⟨n, rfl⟩

theorem trans (h : c.Reaches mid) (h' : mid.Reaches stop) : c.Reaches stop := by
  obtain ⟨m, rfl⟩ := h
  obtain ⟨n, rfl⟩ := h'
  exact ⟨m + n, advance_advance m n c⟩

theorem of_advance {n : Nat} (h : (c.advance n).Reaches stop) : c.Reaches stop :=
  (advance c n).trans h

theorem offset_le (h : c.Reaches stop) : c.offset ≤ stop.offset := by
  obtain ⟨n, rfl⟩ := h
  exact le_advance_offset n c

theorem rest_length_le (h : c.Reaches stop) : stop.rest.length ≤ c.rest.length := by
  obtain ⟨n, rfl⟩ := h
  rw [advance_rest_length]
  omega

/-- What lies between a cursor and one that it reaches is the slice between them. -/
theorem rest_eq (h : c.Reaches stop) : c.rest = c.slice stop ++ stop.rest := by
  obtain ⟨n, rfl⟩ := h
  rw [slice_advance, advance_rest, List.take_append_drop]

theorem position_eq (h : c.Reaches stop) : stop.position = c.position.after (c.slice stop) := by
  obtain ⟨n, rfl⟩ := h
  rw [slice_advance, advance_position]

theorem exists_rest {rest : List Char} (h : c.Reaches mid)
    (hmid : ∃ text, mid.rest = text ++ rest) : ∃ text, c.rest = text ++ rest := by
  obtain ⟨text, hmid⟩ := hmid
  exact ⟨c.slice mid ++ text, by rw [h.rest_eq, hmid, List.append_assoc]⟩

theorem slice_eq {text : List Char} (h : c.Reaches stop) (hrest : c.rest = text ++ stop.rest) :
    c.slice stop = text := List.append_cancel_right (h.rest_eq.symm.trans hrest)

theorem slice_append (h : c.Reaches mid) (h' : mid.Reaches stop) :
    c.slice stop = c.slice mid ++ mid.slice stop := by
  apply (h.trans h').slice_eq
  rw [h.rest_eq, h'.rest_eq, List.append_assoc, ← h'.rest_eq]

end Reaches

namespace IsIn

variable {source : List Char} {c stop : Cursor}

theorem rest_length (h : c.IsIn source) : c.rest.length = source.length - c.offset := by
  rw [h.rest_eq, List.length_drop]

theorem advance (h : c.IsIn source) (n : Nat) : (c.advance n).IsIn source where
  offset_le := by
    have := h.offset_le
    rw [advance_offset, h.rest_length]
    omega
  rest_eq := by
    rw [advance_rest, advance_offset, h.rest_eq, List.drop_drop, List.length_drop]
    rcases Nat.le_total n (source.length - c.offset) with hn | hn
    · rw [Nat.min_eq_left hn]
    · rw [Nat.min_eq_right hn, List.drop_of_length_le (by omega), List.drop_of_length_le (by omega)]
  position_eq := by
    rw [advance_position, advance_offset, h.position_eq, ← Position.after_append, h.rest_eq,
      List.take_add, ← List.take_eq_take_min]

theorem reaches (h : c.IsIn source) (hr : c.Reaches stop) : stop.IsIn source := by
  obtain ⟨n, rfl⟩ := hr
  exact h.advance n

/-- A cursor of a text with nothing left to read stands at the text's end. -/
theorem offset_eq_length (h : c.IsIn source) (hc : c.rest = []) : c.offset = source.length := by
  have := h.rest_length
  have := h.offset_le
  rw [hc, List.length_nil] at *
  omega

theorem slice_eq (h : c.IsIn source) (stop : Cursor) :
    c.slice stop = (source.drop c.offset).take (stop.offset - c.offset) := by
  rw [slice, h.rest_eq]

/-- What precedes a cursor grows by the characters that it steps over. -/
theorem take_reaches (h : c.IsIn source) (hr : c.Reaches stop) :
    source.take stop.offset = source.take c.offset ++ c.slice stop := by
  rw [h.slice_eq, ← List.take_add, Nat.add_sub_cancel' hr.offset_le]

theorem take_advance_offset (h : c.IsIn source) {run rest : List Char}
    (hrest : c.rest = run ++ rest) :
    source.take (c.advance run.length).offset = source.take c.offset ++ run := by
  rw [h.take_reaches (.advance c _), slice_advance, hrest, List.take_left]

end IsIn

end Cursor

end SymbolAtlas
