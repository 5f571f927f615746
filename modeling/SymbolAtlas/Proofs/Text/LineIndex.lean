import SymbolAtlas.Text.Position

/-! # The line index agrees with reading

Reading a text from its start counts lines and columns as it goes; the line index finds them
again from an offset alone. Both answers agree at every offset between two characters, and the
offset can be recovered from the place.
-/

namespace SymbolAtlas

theorem utf16Width_pos (c : Char) : 0 < utf16Width c := by
  unfold utf16Width
  split <;> decide

theorem utf16Length_pos {cs : List Char} (h : cs ≠ []) : 0 < utf16Length cs := by
  cases cs with
  | nil => exact absurd rfl h
  | cons c cs =>
    have := utf16Width_pos c
    rw [utf16Length_cons]
    omega

/-- A longer prefix of a text takes at least as many units. -/
theorem utf16Length_take_le (cs : List Char) {m n : Nat} (h : m ≤ n) :
    utf16Length (cs.take m) ≤ utf16Length (cs.take n) := by
  obtain ⟨k, rfl⟩ := Nat.exists_eq_add_of_le h
  rw [List.take_add, utf16Length_append]
  omega

/-- The unit offset of a character grows strictly with its index. -/
theorem utf16Length_take_lt {cs : List Char} {m n : Nat} (h : m < n) (hn : n ≤ cs.length) :
    utf16Length (cs.take m) < utf16Length (cs.take n) := by
  obtain ⟨k, rfl⟩ := Nat.exists_eq_add_of_lt h
  have hne : (cs.drop m).take (k + 1) ≠ [] := by
    intro he
    have := congrArg List.length he
    simp only [List.length_take, List.length_drop, List.length_nil] at this
    omega
  have := utf16Length_pos hne
  rw [Nat.add_assoc, List.take_add, utf16Length_append]
  omega

/-! ## Line breaks -/

theorem lineBreaks_append (offset : Nat) (cs ds : List Char) :
    lineBreaks offset (cs ++ ds) =
      lineBreaks offset cs ++ lineBreaks (offset + utf16Length cs) ds := by
  induction cs generalizing offset with
  | nil => simp [lineBreaks]
  | cons c cs ih =>
    simp only [List.cons_append, lineBreaks, ih, utf16Length_cons, ← Nat.add_assoc]
    split <;> rfl

/-- The line breaks of a text are the offsets just after its line feeds. -/
theorem mem_lineBreaks {offset b : Nat} {cs : List Char} :
    b ∈ lineBreaks offset cs ↔
      ∃ before after, cs = before ++ '\n' :: after ∧ b = offset + utf16Length before + 1 := by
  constructor
  · intro h
    induction cs generalizing offset with
    | nil => cases h
    | cons c cs ih =>
      have htail (hb : b ∈ lineBreaks (offset + utf16Width c) cs) : ∃ before after,
          c :: cs = before ++ '\n' :: after ∧ b = offset + utf16Length before + 1 := by
        obtain ⟨before, after, rfl, rfl⟩ := ih hb
        exact ⟨c :: before, after, rfl, by rw [utf16Length_cons, Nat.add_assoc offset]⟩
      simp only [lineBreaks] at h
      split at h
      · next hc =>
        subst hc
        rcases List.mem_cons.mp h with rfl | hb
        · exact ⟨[], cs, rfl, rfl⟩
        · exact htail hb
      · exact htail h
  · rintro ⟨before, after, rfl, rfl⟩
    rw [lineBreaks_append]
    exact List.mem_append_right _ List.mem_cons_self

theorem lt_of_mem_lineBreaks {offset b : Nat} {cs : List Char} (h : b ∈ lineBreaks offset cs) :
    offset < b := by
  obtain ⟨before, after, -, rfl⟩ := mem_lineBreaks.mp h
  omega

theorem le_of_mem_lineBreaks {offset b : Nat} {cs : List Char} (h : b ∈ lineBreaks offset cs) :
    b ≤ offset + utf16Length cs := by
  obtain ⟨before, after, rfl, rfl⟩ := mem_lineBreaks.mp h
  have hwidth := utf16Width_pos '\n'
  rw [utf16Length_append, utf16Length_cons]
  omega

/-- Reading on from a place in the line that began at `lineStart` counts the line breaks passed,
and the units since the last of them. -/
theorem Position.after_eq (line : Int) (lineStart offset : Nat) (cs : List Char) :
    Position.after ⟨line, offset - lineStart + 1⟩ cs =
      ⟨line + (lineBreaks offset cs).length,
        (offset + utf16Length cs : Nat) - (lineBreaks offset cs).getLastD lineStart + 1⟩ := by
  induction cs generalizing line lineStart offset with
  | nil => simp [lineBreaks]
  | cons c cs ih =>
    rw [Position.after_cons, utf16Length_cons, ← Nat.add_assoc]
    by_cases hc : c = '\n'
    · have hnext : Position.next ⟨line, offset - lineStart + 1⟩ c =
          ⟨line + 1, (offset + utf16Width c : Nat) - (offset + utf16Width c : Nat) + 1⟩ := by
        simp [Position.next, hc]
      rw [hnext, ih]
      simp only [lineBreaks, hc, if_true, List.length_cons, List.getLastD_cons, Position.mk.injEq,
        and_true]
      omega
    · have hnext : Position.next ⟨line, offset - lineStart + 1⟩ c =
          ⟨line, (offset + utf16Width c : Nat) - lineStart + 1⟩ := by
        simp only [Position.next, hc, if_false, Position.mk.injEq, true_and]
        omega
      rw [hnext, ih]
      simp only [lineBreaks, hc, if_false]

theorem Position.start_after (cs : List Char) :
    Position.start.after cs =
      ⟨(lineBreaks 0 cs).length + 1, utf16Length cs - (lineBreaks 0 cs).getLastD 0 + 1⟩ := by
  have h := Position.after_eq 1 0 0 cs
  rw [Nat.zero_add] at h
  rw [Position.start, Int.add_comm, ← h]
  rfl

/-! ## Lines -/

namespace Position

theorem after_line (p : Position) (text : List Char) :
    (p.after text).line = p.line + text.count '\n' := by
  induction text generalizing p with
  | nil => simp
  | cons c text ih =>
    rw [after_cons, ih, List.count_cons, next]
    by_cases hc : c = '\n'
    · simp only [hc, if_true, beq_self_eq_true]
      omega
    · simp [hc]

/-- After a line without line feeds and its line feed, the next line begins. -/
theorem after_lineFeed {cs : List Char} (h : '\n' ∉ cs) (p : Position) :
    (p.after cs).next '\n' = ⟨p.line + 1, 1⟩ := by
  rw [next, if_pos rfl, after_line, List.count_eq_zero.mpr h, Int.natCast_zero, Int.add_zero]

end Position

namespace LineIndex

/-! ## The binary search -/

/-- The search ends at the last line that begins at or before the offset, or at the first. -/
theorem search_eq {starts : Array Nat} {offset : Int} {low high k : Nat} (hlow : low ≤ k)
    (hhigh : k ≤ high) (begun : ∀ i, 0 < i → i ≤ k → (starts.getD i 0 : Int) ≤ offset)
    (ahead : ∀ i, k < i → i ≤ high → offset < starts.getD i 0) :
    search starts offset low high = k := by
  -- A step keeps `k` between the bounds. The middle is above `low`, so it is never the first line.
  fun_induction search starts offset low high with
  | case1 low high hlt mid hle ih =>
    apply ih _ hhigh ahead
    apply Nat.le_of_not_lt
    intro hk
    have := ahead mid hk (by omega)
    omega
  | case2 low high hlt mid hle ih =>
    have hk : k < mid := by
      apply Nat.lt_of_not_le
      intro hk
      exact hle (begun mid (by omega) hk)
    exact ih hlow (by omega) (fun i hi hm => ahead i hi (by omega))
  | case3 low high hlt => omega

theorem starts_getD_le {before after : List Char} {i : Nat}
    (hi : i ≤ (lineBreaks 0 before).length) :
    (ofList (before ++ after)).starts.getD i 0 ≤ utf16Length before := by
  cases i with
  | zero => simp [ofList, lineStarts]
  | succ i =>
    have hlt : i < (lineBreaks 0 before).length := by omega
    have hmem := le_of_mem_lineBreaks (List.getElem_mem hlt)
    simp only [ofList, lineStarts, lineBreaks_append, Array.getD_eq_getD_getElem?,
      List.getElem?_toArray, List.getElem?_cons_succ, List.getElem?_append_left hlt,
      List.getElem?_eq_getElem hlt, Option.getD_some]
    omega

theorem lt_starts_getD {before after : List Char} {i : Nat}
    (hi : (lineBreaks 0 before).length < i) (hs : i < (ofList (before ++ after)).starts.size) :
    utf16Length before < (ofList (before ++ after)).starts.getD i 0 := by
  cases i with
  | zero => omega
  | succ i =>
    simp only [ofList, lineStarts, lineBreaks_append, List.size_toArray, List.length_cons,
      List.length_append, Nat.zero_add] at hs
    have hlt : i - (lineBreaks 0 before).length <
        (lineBreaks (utf16Length before) after).length := by omega
    have hmem := lt_of_mem_lineBreaks (List.getElem_mem hlt)
    simp only [ofList, lineStarts, lineBreaks_append, Array.getD_eq_getD_getElem?,
      List.getElem?_toArray, List.getElem?_cons_succ, Nat.zero_add,
      List.getElem?_append_right (show (lineBreaks 0 before).length ≤ i by omega),
      List.getElem?_eq_getElem hlt, Option.getD_some]
    exact hmem

/-- The line that holds the end of a prefix begins at the prefix's last line break. -/
theorem starts_getD_length (before after : List Char) :
    (ofList (before ++ after)).starts.getD (lineBreaks 0 before).length 0 =
      (lineBreaks 0 before).getLastD 0 := by
  simp only [ofList, lineStarts, lineBreaks_append, Array.getD_eq_getD_getElem?,
    List.getElem?_toArray]
  rcases List.eq_nil_or_concat (lineBreaks 0 before) with h | ⟨init, b, h⟩
  · simp [h]
  · simp [h]

/-- The index locates the end of every prefix where reading the prefix leads to. -/
theorem locate_prefix (before after : List Char) :
    (ofList (before ++ after)).locate (utf16Length before) = Position.start.after before := by
  have hsize : (ofList (before ++ after)).starts.size =
      (lineBreaks 0 before).length + (lineBreaks (utf16Length before) after).length + 1 := by
    simp [ofList, lineStarts, lineBreaks_append]
  have hsearch : search (ofList (before ++ after)).starts (utf16Length before) 0
      ((ofList (before ++ after)).starts.size - 1) = (lineBreaks 0 before).length :=
    search_eq (Nat.zero_le _) (by omega) (fun i _ hi => Int.ofNat_le.mpr (starts_getD_le hi))
      (fun i hi hs => Int.ofNat_lt.mpr (lt_starts_getD hi (by omega)))
  rw [locate, hsearch, starts_getD_length, Position.start_after]

/-- The offset, in UTF-16 units, of a place in the indexed text. -/
def offsetOf (index : LineIndex) (p : Position) : Nat :=
  index.starts.getD (p.line - 1).toNat 0 + (p.column - 1).toNat

theorem offsetOf_prefix (before after : List Char) :
    (ofList (before ++ after)).offsetOf (Position.start.after before) = utf16Length before := by
  have hle : (lineBreaks 0 before).getLastD 0 ≤ utf16Length before :=
    starts_getD_length before after ▸ starts_getD_le (Nat.le_refl _)
  have hline : ((lineBreaks 0 before).length + 1 - 1 : Int).toNat =
      (lineBreaks 0 before).length := by omega
  rw [offsetOf, Position.start_after]
  simp only [hline, starts_getD_length]
  omega

end LineIndex

end SymbolAtlas
