import Mathlib.Data.List.Basic
import SymbolAtlas.Token.Lexeme

/-! # The tables of identifier characters

The binary search over a sorted table of changes finds whether a code point lies inside one of the
intervals that the table lists. One sweep over both tables then shows that a character that may
begin a name may also continue one.
-/

namespace SymbolAtlas.Identifier

/-- Whether `n` lies in one of the intervals between the first change and the second, the third
and the fourth, and so on. -/
def isInside : List Nat → Nat → Bool
  | low :: high :: flips, n => (low ≤ n && n < high) || isInside flips n
  | [low], n => low ≤ n
  | [], _ => false

/-- The number of entries of a sorted table that are at most `n`. -/
def rank (flips : List Nat) (n : Nat) : Nat := (flips.takeWhile (· ≤ n)).length

@[simp] theorem rank_nil (n : Nat) : rank [] n = 0 := rfl

theorem rank_cons (a : Nat) (flips : List Nat) (n : Nat) :
    rank (a :: flips) n = if a ≤ n then rank flips n + 1 else 0 := by
  by_cases h : a ≤ n <;> simp [rank, h]

theorem rank_le_length (flips : List Nat) (n : Nat) : rank flips n ≤ flips.length :=
  (List.takeWhile_sublist _).length_le

theorem le_of_lt_rank {flips : List Nat} {n i : Nat} (h : i < rank flips n) :
    flips.getD i 0 ≤ n := by
  induction flips generalizing i with
  | nil => cases h
  | cons a flips ih =>
    rw [rank_cons] at h
    by_cases ha : a ≤ n
    · rw [if_pos ha] at h
      cases i with
      | zero => exact ha
      | succ i => exact ih (Nat.lt_of_succ_lt_succ h)
    · rw [if_neg ha] at h
      cases h

theorem lt_of_rank_le {flips : List Nat} (sorted : flips.Pairwise (· < ·)) {n i : Nat}
    (h : rank flips n ≤ i) (hi : i < flips.length) : n < flips.getD i 0 := by
  induction flips generalizing i with
  | nil => cases hi
  | cons a flips ih =>
    obtain ⟨hhead, htail⟩ := List.pairwise_cons.mp sorted
    rw [rank_cons] at h
    by_cases ha : a ≤ n
    · rw [if_pos ha] at h
      cases i with
      | zero => cases h
      | succ i => exact ih htail (Nat.le_of_succ_le_succ h) (Nat.lt_of_succ_lt_succ hi)
    · cases i with
      | zero => exact Nat.lt_of_not_le ha
      | succ i =>
        have hlt := Nat.lt_of_succ_lt_succ hi
        have := hhead _ (List.getElem_mem hlt)
        rw [List.getD_cons_succ, List.getD_eq_getElem?_getD, List.getElem?_eq_getElem hlt,
          Option.getD_some]
        omega

/-- The binary search counts the entries up to `n`. -/
theorem countUpTo_eq {table : Array Nat} {n low high k : Nat} (hlow : low ≤ k) (hhigh : k ≤ high)
    (upTo : ∀ i < k, table.getD i 0 ≤ n) (beyond : ∀ i, k ≤ i → i < high → n < table.getD i 0) :
    countUpTo table n low high = k := by
  fun_induction countUpTo table n low high with
  | case1 low high hlt mid hle ih =>
    apply ih _ hhigh beyond
    apply Nat.lt_of_not_le
    intro hk
    have := beyond mid hk (by omega)
    omega
  | case2 low high hlt mid hle ih =>
    have hk : k ≤ mid := by
      apply Nat.le_of_not_lt
      intro hk
      exact hle (upTo mid hk)
    exact ih hlow hk (fun i hi hm => beyond i hi (by omega))
  | case3 low high hlt => omega

theorem isInside_eq_false_of_lt {flips : List Nat} {n : Nat} (h : ∀ a ∈ flips, n < a) :
    isInside flips n = false := by
  fun_induction isInside flips n with
  | case1 low high flips n ih =>
    have hlow := h low List.mem_cons_self
    rw [ih fun a ha => h a (List.mem_cons_of_mem _ (List.mem_cons_of_mem _ ha)),
      decide_eq_false (Nat.not_le_of_lt hlow)]
    rfl
  | case2 low n => exact decide_eq_false (Nat.not_le_of_lt (h low List.mem_cons_self))
  | case3 => rfl

/-- A code point lies inside exactly if the number of changes up to it is odd. -/
theorem isInside_eq_rank {flips : List Nat} (sorted : flips.Pairwise (· < ·)) (n : Nat) :
    isInside flips n = (rank flips n % 2 == 1) := by
  fun_induction isInside flips n with
  | case1 low high flips n ih =>
    obtain ⟨hlow, htail⟩ := List.pairwise_cons.mp sorted
    obtain ⟨hhigh, hrest⟩ := List.pairwise_cons.mp htail
    have hlt := hlow high List.mem_cons_self
    rw [rank_cons, rank_cons]
    by_cases hn : high ≤ n
    · have hle : low ≤ n := by omega
      rw [if_pos hle, if_pos hn, ih hrest, decide_eq_false (Nat.not_lt_of_le hn), Bool.and_false,
        Bool.false_or, Nat.add_assoc, Nat.add_mod_right]
    · rw [if_neg hn, isInside_eq_false_of_lt fun a ha => by
        have := hhigh a ha
        omega]
      by_cases hle : low ≤ n
      · simp [hle, Nat.lt_of_not_le hn]
      · simp [hle]
  | case2 low n =>
    rw [rank_cons]
    by_cases hle : low ≤ n <;> simp [hle]
  | case3 => rfl

theorem inFlips_eq_isInside {table : Array Nat} (sorted : table.toList.Pairwise (· < ·))
    (n : Nat) : inFlips table n = isInside table.toList n := by
  have hget (i : Nat) : table.getD i 0 = table.toList.getD i 0 := by
    rw [Array.getD_eq_getD_getElem?, List.getD_eq_getElem?_getD, Array.getElem?_toList]
  have hcount : countUpTo table n 0 table.size = rank table.toList n := by
    apply countUpTo_eq (Nat.zero_le _)
    · rw [← Array.length_toList]
      exact rank_le_length _ _
    · intro i hi
      rw [hget]
      exact le_of_lt_rank hi
    · intro i hi hsize
      rw [hget]
      exact lt_of_rank_le sorted hi (by rwa [Array.length_toList])
  rw [inFlips, hcount, isInside_eq_rank sorted]

/-! ## One set of intervals inside another -/

/-- The intervals of a table from the first that is not inside `low` and `high`. -/
def dropInside (low high : Nat) : List Nat → List Nat
  | a :: b :: flips =>
    if low ≤ a && b ≤ high then dropInside low high flips else a :: b :: flips
  | flips => flips

/-- Whether a sweep over the intervals of the second table leaves no interval of the first. -/
def isCoveredBy : List Nat → List Nat → Bool
  | flips, low :: high :: cover => isCoveredBy (dropInside low high flips) cover
  | flips, _ => flips.isEmpty

theorem isInside_of_dropInside (low high : Nat) {flips : List Nat} {n : Nat}
    (h : isInside flips n = true) :
    low ≤ n ∧ n < high ∨ isInside (dropInside low high flips) n = true := by
  fun_induction dropInside low high flips with
  | case1 a b flips hab ih =>
    simp only [Bool.and_eq_true, decide_eq_true_eq] at hab
    simp only [isInside, Bool.or_eq_true, Bool.and_eq_true, decide_eq_true_eq] at h
    rcases h with h | h
    · exact .inl (by omega)
    · exact ih h
  | case2 => exact .inr h
  | case3 => exact .inr h

theorem isInside_of_isCoveredBy {flips cover : List Nat} {n : Nat}
    (hcover : isCoveredBy flips cover = true) (h : isInside flips n = true) :
    isInside cover n = true := by
  fun_induction isCoveredBy flips cover with
  | case1 flips low high cover ih =>
    rw [isInside, Bool.or_eq_true, Bool.and_eq_true, decide_eq_true_eq, decide_eq_true_eq]
    exact (isInside_of_dropInside low high h).imp id (ih hcover)
  | case2 flips =>
    rw [List.isEmpty_iff.mp hcover] at h
    cases h

theorem startFlips_sorted : startFlips.toList.Pairwise (· < ·) := by
  rw [← List.isChain_iff_pairwise]
  decide +kernel

theorem continueFlips_sorted : continueFlips.toList.Pairwise (· < ·) := by
  rw [← List.isChain_iff_pairwise]
  decide +kernel

theorem isIdContinue_of_isIdStart {c : Char} (h : isIdStart c = true) : isIdContinue c = true := by
  unfold isIdStart at h
  unfold isIdContinue
  split at h
  · next hascii => rw [if_pos hascii, isAsciiWord, h, Bool.true_or, Bool.true_or]
  · next hascii =>
    rw [if_neg hascii, inFlips_eq_isInside continueFlips_sorted]
    rw [inFlips_eq_isInside startFlips_sorted] at h
    exact isInside_of_isCoveredBy (by decide +kernel) h

end SymbolAtlas.Identifier

namespace SymbolAtlas.Lexeme

open Identifier

/-- What may begin a name may continue it. -/
theorem isNamePart_of_isNameStart {c : Char} (h : isNameStart c = true) : isNamePart c = true := by
  simp only [isNameStart, Bool.and_eq_true, Bool.or_eq_true, beq_iff_eq] at h
  obtain ⟨hwidth, (hstart | rfl) | rfl⟩ := h
  · simp [isNamePart, hwidth, isIdContinue_of_isIdStart hstart]
  · decide
  · decide

end SymbolAtlas.Lexeme
