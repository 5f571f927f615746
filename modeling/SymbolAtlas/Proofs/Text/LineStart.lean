import Mathlib.Data.Nat.Count
import Mathlib.Data.Finset.Card
import Mathlib.Order.Bounds.Basic
import SymbolAtlas.Proofs.Text.LineIndex
import SymbolAtlas.Proofs.Text.ReadingOrder

/-! # Line starts

A line begins at the start of a text and just after every line feed. The line index finds the line
of an offset by halving; the answer is the one that counting gives: the greatest line start at or
before the offset, the number of line starts before that one, and the distance from it. This holds
for every offset, also for those before and behind the text, and so the index keeps the order of
offsets.
-/

namespace SymbolAtlas

/-- A line of the text begins at this offset, in UTF-16 units. -/
inductive IsLineStart (cs : List Char) : Nat → Prop
  | first : IsLineStart cs 0
  | afterLineFeed {before after : List Char} (split : cs = before ++ '\n' :: after) :
      IsLineStart cs (utf16Length before + 1)

/-- The greatest line start at or before an offset, or the first where there is none. -/
inductive BeginsLineOf (cs : List Char) (offset : Int) : Nat → Prop
  | greatest {s : Nat} (h : IsGreatest {b : Nat | IsLineStart cs b ∧ (b : Int) ≤ offset} s) :
      BeginsLineOf cs offset s
  | none (h : ∀ b, IsLineStart cs b → offset < b) : BeginsLineOf cs offset 0

/-! ## The collected line starts -/

theorem mem_lineStarts {cs : List Char} {b : Nat} : b ∈ lineStarts cs ↔ IsLineStart cs b := by
  rw [lineStarts, List.mem_cons, mem_lineBreaks]
  constructor
  · rintro (rfl | ⟨before, after, hsplit, rfl⟩)
    · exact .first
    · rw [Nat.zero_add]
      exact .afterLineFeed hsplit
  · rintro (_ | hsplit)
    · exact .inl rfl
    · exact .inr ⟨_, _, hsplit, by rw [Nat.zero_add]⟩

instance (cs : List Char) : DecidablePred (IsLineStart cs) :=
  fun _ => decidable_of_iff _ mem_lineStarts

theorem pairwise_lineBreaks (offset : Nat) (cs : List Char) :
    (lineBreaks offset cs).Pairwise (· < ·) := by
  induction cs generalizing offset with
  | nil => exact .nil
  | cons c cs ih =>
    simp only [lineBreaks]
    split
    · exact .cons (fun _ hb => lt_of_mem_lineBreaks hb) (ih _)
    · exact ih _

/-- Line starts are collected in order, each once. -/
theorem pairwise_lineStarts (cs : List Char) : (lineStarts cs).Pairwise (· < ·) :=
  .cons (fun _ hb => lt_of_mem_lineBreaks hb) (pairwise_lineBreaks 0 cs)

theorem lineStarts_lt_iff (cs : List Char) {i j : Nat} (hi : i < (lineStarts cs).length)
    (hj : j < (lineStarts cs).length) : (lineStarts cs)[i] < (lineStarts cs)[j] ↔ i < j := by
  have hlt := List.pairwise_iff_getElem.mp (pairwise_lineStarts cs)
  refine ⟨fun h => Nat.lt_of_not_le fun hle => ?_, hlt i j hi hj⟩
  rcases Nat.lt_or_eq_of_le hle with hji | rfl
  · exact Nat.lt_asymm h (hlt j i hj hi hji)
  · exact Nat.lt_irrefl _ h

/-- Before a line start there are as many line starts as its line has predecessors. -/
theorem count_isLineStart {cs : List Char} {i : Nat} (hi : i < (lineStarts cs).length) :
    Nat.count (IsLineStart cs) (lineStarts cs)[i] = i := by
  have hbefore : {b ∈ Finset.range (lineStarts cs)[i] | IsLineStart cs b} =
      ((lineStarts cs).take i).toFinset := by
    ext b
    rw [Finset.mem_filter, Finset.mem_range, ← mem_lineStarts, List.mem_toFinset,
      List.mem_take_iff_getElem]
    constructor
    · rintro ⟨hlt, hmem⟩
      obtain ⟨j, hj, rfl⟩ := List.getElem_of_mem hmem
      have hji := (lineStarts_lt_iff cs hj hi).mp hlt
      exact ⟨j, by omega, rfl⟩
    · rintro ⟨j, hj, rfl⟩
      exact ⟨(lineStarts_lt_iff cs (by omega) hi).mpr (by omega), List.getElem_mem _⟩
  have hnodup : ((lineStarts cs).take i).Nodup :=
    ((pairwise_lineStarts cs).imp Nat.ne_of_lt).take
  rw [Nat.count_eq_card_filter_range, hbefore, List.toFinset_card_of_nodup hnodup,
    List.length_take, Nat.min_eq_left (Nat.le_of_lt hi)]

/-! ## The line of an offset -/

namespace BeginsLineOf

variable {cs : List Char} {offset : Int} {s : Nat}

theorem isLineStart (h : BeginsLineOf cs offset s) : IsLineStart cs s := by
  cases h with
  | greatest h => exact h.1.1
  | none => exact .first

/-- Up to the line of an offset no line begins behind the offset, but for the first. -/
theorem natCast_le {b : Nat} (h : BeginsLineOf cs offset s) (hpos : 0 < b) (hb : b ≤ s) :
    (b : Int) ≤ offset := by
  cases h with
  | greatest h => exact Int.le_trans (Int.ofNat_le.mpr hb) h.1.2
  | none => omega

/-- After the line of an offset every line begins behind the offset. -/
theorem lt_natCast {b : Nat} (h : BeginsLineOf cs offset s) (hb : IsLineStart cs b)
    (hlt : s < b) : offset < b := by
  cases h with
  | greatest h => exact Int.lt_of_not_ge fun hle => Nat.not_le_of_lt hlt (h.2 ⟨hb, hle⟩)
  | none h => exact h b hb

/-- A later offset has the same line or a later one. -/
theorem le_of_le {later : Int} {t : Nat} (hs : BeginsLineOf cs offset s)
    (ht : BeginsLineOf cs later t) (h : offset ≤ later) : s ≤ t := by
  apply Nat.le_of_not_lt
  intro hlt
  have hbegun := hs.natCast_le (Nat.zero_lt_of_lt hlt) (Nat.le_refl s)
  have hahead := ht.lt_natCast hs.isLineStart hlt
  omega

end BeginsLineOf

theorem exists_beginsLineOf (cs : List Char) (offset : Int) : ∃ s, BeginsLineOf cs offset s := by
  rcases Int.lt_or_le offset 0 with hneg | hpos
  · exact ⟨0, .none fun b _ => by omega⟩
  · refine ⟨Nat.findGreatest (IsLineStart cs) offset.toNat, .greatest ⟨⟨?_, ?_⟩, ?_⟩⟩
    · exact Nat.findGreatest_spec (Nat.zero_le _) .first
    · have := Nat.findGreatest_le (P := IsLineStart cs) offset.toNat
      omega
    · rintro b ⟨hb, hle⟩
      exact Nat.le_findGreatest (by omega) hb

namespace LineIndex

theorem starts_getD (cs : List Char) {i : Nat} (hi : i < (lineStarts cs).length) :
    (ofList cs).starts.getD i 0 = (lineStarts cs)[i] := by
  simp [ofList, hi]

/-- Halving finds the place of a line among the line starts. -/
theorem search_lineStarts {cs : List Char} {offset : Int} {i : Nat}
    (hi : i < (lineStarts cs).length) (h : BeginsLineOf cs offset (lineStarts cs)[i]) :
    search (ofList cs).starts offset 0 ((ofList cs).starts.size - 1) = i := by
  have hsize : (ofList cs).starts.size = (lineStarts cs).length := List.size_toArray ..
  apply search_eq (Nat.zero_le i) (by omega)
  · intro j hj hji
    have hfirst := (lineStarts_lt_iff cs (by omega) (by omega)).mpr hj
    rw [starts_getD cs (by omega)]
    apply h.natCast_le (Nat.zero_lt_of_lt hfirst)
    rw [← Nat.not_lt, lineStarts_lt_iff cs hi (by omega)]
    exact Nat.not_lt.mpr hji
  · intro j hij hj
    rw [starts_getD cs (by omega)]
    exact h.lt_natCast (mem_lineStarts.mp (List.getElem_mem _))
      ((lineStarts_lt_iff cs hi (by omega)).mpr hij)

/-- The index answers as counting does. -/
theorem locate_of_beginsLineOf {cs : List Char} {offset : Int} {s : Nat}
    (h : BeginsLineOf cs offset s) :
    (ofList cs).locate offset = ⟨Nat.count (IsLineStart cs) s + 1, offset - s + 1⟩ := by
  obtain ⟨i, hi, rfl⟩ := List.getElem_of_mem (mem_lineStarts.mpr h.isLineStart)
  rw [locate, search_lineStarts hi h, starts_getD cs hi, count_isLineStart hi]

/-- A greater offset is located further on. -/
theorem before_locate {cs : List Char} {i j : Int} (h : i < j) :
    ((ofList cs).locate i).before ((ofList cs).locate j) = true := by
  obtain ⟨s, hs⟩ := exists_beginsLineOf cs i
  obtain ⟨t, ht⟩ := exists_beginsLineOf cs j
  rw [locate_of_beginsLineOf hs, locate_of_beginsLineOf ht, Position.before_iff]
  rcases Nat.lt_or_eq_of_le (hs.le_of_le ht (Int.le_of_lt h)) with hlt | rfl
  · have hcount := Nat.count_strict_mono hs.isLineStart hlt
    exact .inl (Int.add_lt_add_right (Int.ofNat_lt.mpr hcount) 1)
  · exact .inr ⟨rfl, Int.add_lt_add_right (Int.sub_lt_sub_right h _) 1⟩

theorem locate_injective (cs : List Char) : Function.Injective (ofList cs).locate := by
  intro i j h
  rcases Int.lt_trichotomy i j with hlt | heq | hlt
  · exact absurd h (Position.ne_of_before (before_locate hlt))
  · exact heq
  · exact absurd h.symm (Position.ne_of_before (before_locate hlt))

theorem before_locate_iff {cs : List Char} {i j : Int} :
    ((ofList cs).locate i).before ((ofList cs).locate j) = true ↔ i < j := by
  refine ⟨fun h => ?_, before_locate⟩
  rcases Int.lt_trichotomy i j with hlt | rfl | hlt
  · exact hlt
  · exact absurd rfl (Position.ne_of_before h)
  · exact absurd rfl (Position.ne_of_before (Position.before_trans h (before_locate hlt)))

/-- Counting line starts locates every offset, in the text or not, and the places of different
offsets differ and are in the order of the offsets. -/
theorem locate_counting (cs : List Char) :
    (∀ offset : Int, ∃ s, BeginsLineOf cs offset s ∧
      (ofList cs).locate offset = ⟨Nat.count (IsLineStart cs) s + 1, offset - s + 1⟩) ∧
    (∀ i j : Int, ((ofList cs).locate i).before ((ofList cs).locate j) = true ↔ i < j) ∧
    Function.Injective (ofList cs).locate := by
  refine ⟨fun offset => ?_, fun _ _ => before_locate_iff, locate_injective cs⟩
  obtain ⟨s, hs⟩ := exists_beginsLineOf cs offset
  exact ⟨s, hs, locate_of_beginsLineOf hs⟩

end LineIndex

end SymbolAtlas
