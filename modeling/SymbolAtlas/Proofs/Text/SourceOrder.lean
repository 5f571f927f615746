/-! # Findings in source order

Findings of several kinds are put together kind by kind and then sorted by where they stand. The
sort is stable, so findings at one place keep their order; if those at one place are all of one
kind, the result is the order in which they stand in the source.
-/

namespace SymbolAtlas

variable {α : Type} {key : α → Nat}

/-- Sorting by a key puts a list in the order of the keys. -/
theorem pairwise_mergeSort_key (l : List α) :
    (l.mergeSort fun a b => key a ≤ key b).Pairwise fun a b => key a ≤ key b := by
  have := @List.pairwise_mergeSort _ (fun a b => decide (key a ≤ key b)) (by simp; omega)
    (by simp; omega) l
  simpa using this

/-- Sorting by a key that all have to themselves leaves no choice of the order. -/
theorem pairwise_mergeSort_of_ne {l : List α} (h : l.Pairwise fun a b => key a ≠ key b) :
    (l.mergeSort fun a b => key a ≤ key b).Pairwise fun a b => key a < key b := by
  have hne := ((List.mergeSort_perm l fun a b => decide (key a ≤ key b)).symm.pairwise_iff
    fun {_ _} => Ne.symm).mp h
  exact ((pairwise_mergeSort_key l).and hne).imp fun ⟨hle, hne⟩ => Nat.lt_of_le_of_ne hle hne

/-- Sorting by a key keeps the order of what has the same key. -/
theorem filter_mergeSort (l : List α) (k : Nat) :
    (l.mergeSort fun a b => key a ≤ key b).filter (key · == k) = l.filter (key · == k) := by
  induction l with
  | nil => rw [List.mergeSort_nil]
  | cons a l ih =>
    obtain ⟨front, back, hsorted, htail, hfront⟩ := @List.mergeSort_cons _
      (fun a b => decide (key a ≤ key b)) (by simp; omega) (by simp; omega) a l
    rw [hsorted, List.filter_append, List.filter_cons, List.filter_cons, ← ih, htail,
      List.filter_append]
    by_cases ha : key a = k
    · have hnone : front.filter (key · == k) = [] := by
        rw [List.filter_eq_nil_iff]
        intro b hb
        have := hfront b hb
        simp at this ⊢
        omega
      simp [hnone, ha]
    · simp [ha]

/-- A list that is sorted by a key is determined by what each key has. -/
theorem eq_of_filter_eq {l m : List α} (hl : l.Pairwise fun a b => key a ≤ key b)
    (hm : m.Pairwise fun a b => key a ≤ key b)
    (h : ∀ k, l.filter (key · == k) = m.filter (key · == k)) : l = m := by
  have hmem {b : α} : b ∈ l ↔ b ∈ m := by
    have := congrArg (b ∈ ·) (h (key b))
    simpa using this
  induction l generalizing m with
  | nil =>
    cases m with
    | nil => rfl
    | cons b m => exact absurd (hmem.mpr List.mem_cons_self) (List.not_mem_nil)
  | cons a l ih =>
    cases m with
    | nil => exact absurd (hmem.mp List.mem_cons_self) (List.not_mem_nil)
    | cons b m =>
      obtain ⟨hhead, htail⟩ := List.pairwise_cons.mp hl
      obtain ⟨hhead', htail'⟩ := List.pairwise_cons.mp hm
      have hle : key a ≤ key b := by
        rcases List.mem_cons.mp (hmem.mpr List.mem_cons_self) with hb | hb
        · exact Nat.le_of_eq (congrArg key hb.symm)
        · exact hhead b hb
      have hge : key b ≤ key a := by
        rcases List.mem_cons.mp (hmem.mp List.mem_cons_self) with ha | ha
        · exact Nat.le_of_eq (congrArg key ha.symm)
        · exact hhead' a ha
      have hkey : key b = key a := Nat.le_antisymm hge hle
      have hcons := h (key a)
      rw [List.filter_cons_of_pos (by simp), List.filter_cons_of_pos (by simp [hkey])] at hcons
      obtain rfl : a = b := List.head_eq_of_cons_eq hcons
      have hrest (k : Nat) : l.filter (key · == k) = m.filter (key · == k) := by
        by_cases hk : key a = k
        · subst hk
          exact List.tail_eq_of_cons_eq hcons
        · have := h k
          rwa [List.filter_cons_of_neg (by simpa using hk),
            List.filter_cons_of_neg (by simpa using hk)] at this
      have hmemTail {c : α} : c ∈ l ↔ c ∈ m := by
        have := congrArg (c ∈ ·) (hrest (key c))
        simpa using this
      rw [ih htail htail' hrest hmemTail]

theorem filter_filter_comm (p q : α → Bool) (l : List α) :
    (l.filter p).filter q = (l.filter q).filter p := by
  rw [List.filter_filter, List.filter_filter]
  congr 1
  funext a
  exact Bool.and_comm _ _

/-- If all that has one key is of one kind, sorting by the key puts the two kinds of a sorted list
together again. -/
theorem mergeSort_kinds {p : α → Bool} {l : List α} (hl : l.Pairwise fun a b => key a ≤ key b)
    (hkind : ∀ a ∈ l, ∀ b ∈ l, key a = key b → p a = p b) :
    ((l.filter p ++ l.filter (!p ·)).mergeSort fun a b => key a ≤ key b) = l := by
  refine eq_of_filter_eq (pairwise_mergeSort_key _) hl fun k => ?_
  rw [filter_mergeSort, List.filter_append, filter_filter_comm, filter_filter_comm (!p ·)]
  have hsame : ∀ a ∈ l.filter (key · == k), ∀ b ∈ l.filter (key · == k), p a = p b := by
    intro a ha b hb
    simp only [List.mem_filter, beq_iff_eq] at ha hb
    exact hkind a ha.1 b hb.1 (ha.2.trans hb.2.symm)
  cases hclass : l.filter (key · == k) with
  | nil => rfl
  | cons a others =>
    rw [hclass] at hsame
    have hall : ∀ b ∈ a :: others, p b = p a := fun b hb => hsame b hb a List.mem_cons_self
    cases hp : p a with
    | true =>
      rw [List.filter_eq_self.mpr fun b hb => (hall b hb).trans hp,
        List.filter_eq_nil_iff.mpr fun b hb => by simp [hall b hb, hp], List.append_nil]
    | false =>
      rw [List.filter_eq_nil_iff.mpr fun b hb => by simp [hall b hb, hp],
        List.filter_eq_self.mpr fun b hb => by simp [hall b hb, hp], List.nil_append]

end SymbolAtlas
