import SymbolAtlas.Proofs.Text.LineIndex
import SymbolAtlas.Text.Matches

/-! # Sweeping a text for matches

A pattern that does not look back is matched from left to right, and each search goes on behind the
last match. So the matches stand in order and do not overlap, and wherever else the pattern occurs,
the occurrence begins inside a match.
-/

namespace SymbolAtlas

/-- An occurrence in a text: the index of its first character, the number of its characters, and
its value. -/
structure Occurrence (α : Type) where
  start : Nat
  length : Nat
  value : α

namespace Occurrence

variable {α : Type}

def stop (m : Occurrence α) : Nat := m.start + m.length

def shift (k : Nat) (m : Occurrence α) : Occurrence α := ⟨k + m.start, m.length, m.value⟩

theorem stop_shift (k : Nat) (m : Occurrence α) : (m.shift k).stop = k + m.stop :=
  Nat.add_assoc _ _ _

end Occurrence

/-- What is found by sweeping a text: occurrences in order, which do not overlap, such that every
other occurrence begins inside one of them. -/
structure IsSweep {α : Type} (Occurs : Occurrence α → Prop) (found : List (Occurrence α)) :
    Prop where
  occurs : ∀ m ∈ found, Occurs m
  ordered : found.Pairwise fun m next => m.stop ≤ next.start
  complete : ∀ m, Occurs m → ∃ first ∈ found, first.start ≤ m.start ∧ m.start < first.stop

namespace Pattern

variable {α : Type} {pattern : Pattern α}

/-- The pattern does not look back, and takes at least one of the characters before it. -/
structure LooksAhead (pattern : Pattern α) : Prop where
  forward : ∀ previous previous' cs, pattern previous cs = pattern previous' cs
  pos : ∀ {previous cs a n}, pattern previous cs = some (a, n) → 0 < n
  le : ∀ {previous cs a n}, pattern previous cs = some (a, n) → n ≤ cs.length

def OccursIn (pattern : Pattern α) (cs : List Char) (m : Occurrence α) : Prop :=
  pattern none (cs.drop m.start) = some (m.value, m.length)

theorem occursIn_shift {cs : List Char} {k : Nat} {m : Occurrence α} :
    pattern.OccursIn cs (m.shift k) ↔ pattern.OccursIn (cs.drop k) m := by
  rw [OccursIn, OccursIn, Occurrence.shift, List.drop_drop]

/-- An occurrence behind the first `k` characters. -/
theorem OccursIn.exists_shift {cs : List Char} {k : Nat} {m : Occurrence α}
    (h : pattern.OccursIn cs m) (hk : k ≤ m.start) :
    ∃ m', pattern.OccursIn (cs.drop k) m' ∧ m'.shift k = m := by
  obtain ⟨i, hi⟩ := Nat.exists_eq_add_of_le hk
  have hshift : Occurrence.shift k ⟨i, m.length, m.value⟩ = m := by
    rw [Occurrence.shift, ← hi]
  exact ⟨_, occursIn_shift.mp (hshift ▸ h), hshift⟩

/-- Behind the first `k` characters, a sweep of the rest is a sweep. -/
theorem isSweep_shift {cs : List Char} {k : Nat} {found : List (Occurrence α)}
    (hfound : IsSweep (pattern.OccursIn (cs.drop k)) found) :
    IsSweep (fun m => pattern.OccursIn cs m ∧ k ≤ m.start) (found.map (.shift k)) where
  occurs m hm := by
    obtain ⟨m', hm', rfl⟩ := List.mem_map.mp hm
    exact ⟨occursIn_shift.mpr (hfound.occurs m' hm'), Nat.le_add_right _ _⟩
  ordered := by
    rw [List.pairwise_map]
    refine hfound.ordered.imp fun {m next} hle => ?_
    rw [Occurrence.stop_shift]
    exact Nat.add_le_add_left hle k
  complete m hm := by
    obtain ⟨m', hm', rfl⟩ := hm.1.exists_shift hm.2
    obtain ⟨first, hfirst, hle, hlt⟩ := hfound.complete m' hm'
    refine ⟨first.shift k, List.mem_map_of_mem hfirst, Nat.add_le_add_left hle k, ?_⟩
    rw [Occurrence.stop_shift]
    exact Nat.add_lt_add_left hlt k

/-- A sweep that goes on behind a first character at which nothing occurs. -/
theorem isSweep_of_none {c : Char} {cs : List Char} {found : List (Occurrence α)}
    (hnone : pattern none (c :: cs) = none) (hfound : IsSweep (pattern.OccursIn cs) found) :
    IsSweep (pattern.OccursIn (c :: cs)) (found.map (.shift 1)) := by
  have hshift := @isSweep_shift _ pattern (c :: cs) 1 found hfound
  refine ⟨fun m hm => (hshift.occurs m hm).1, hshift.ordered,
    fun m hm => hshift.complete m ⟨hm, ?_⟩⟩
  rw [Nat.one_le_iff_ne_zero]
  intro hstart
  rw [OccursIn, hstart, List.drop_zero, hnone] at hm
  cases hm

/-- A sweep that goes on behind a match. -/
theorem isSweep_of_match {cs : List Char} {a : α} {n : Nat} {found : List (Occurrence α)}
    (hmatch : pattern none cs = some (a, n))
    (hfound : IsSweep (pattern.OccursIn (cs.drop n)) found) :
    IsSweep (pattern.OccursIn cs) (⟨0, n, a⟩ :: found.map (.shift n)) := by
  have hshift := isSweep_shift hfound
  have hstop : Occurrence.stop ⟨0, n, a⟩ = n := Nat.zero_add n
  refine ⟨?_, .cons (fun m hm => ?_) hshift.ordered, fun m hm => ?_⟩
  · exact List.forall_mem_cons.mpr ⟨hmatch, fun m hm => (hshift.occurs m hm).1⟩
  · rw [hstop]
    exact (hshift.occurs m hm).2
  · by_cases hinside : m.start < n
    · exact ⟨_, List.mem_cons_self, Nat.zero_le _, Nat.lt_of_lt_of_eq hinside hstop.symm⟩
    · obtain ⟨first, hmem, hle⟩ := hshift.complete m ⟨hm, Nat.le_of_not_lt hinside⟩
      exact ⟨first, List.mem_cons_of_mem _ hmem, hle⟩

/-! ## The matches of a text -/

theorem matchesFrom_skip (offset : Nat) (previous : Option Char) (skip : Nat) (cs : List Char) :
    ∃ previous', matchesFrom pattern offset previous skip cs =
      matchesFrom pattern (offset + utf16Length (cs.take skip)) previous' 0 (cs.drop skip) := by
  induction cs generalizing offset previous skip with
  | nil =>
    refine ⟨previous, ?_⟩
    cases skip <;> rfl
  | cons c cs ih =>
    cases skip with
    | zero => exact ⟨previous, rfl⟩
    | succ skip =>
      obtain ⟨previous', heq⟩ := ih (offset + utf16Width c) (some c) skip
      refine ⟨previous', ?_⟩
      rw [matchesFrom, heq, List.take_succ_cons, utf16Length_cons, List.drop_succ_cons,
        Nat.add_assoc]

/-- Behind a match the search goes on behind its characters. -/
theorem matchesFrom_match {cs : List Char} {previous : Option Char} {a : α} {n : Nat}
    (h : pattern.LooksAhead) (hmatch : pattern previous cs = some (a, n)) (offset : Nat) :
    ∃ previous', matchesFrom pattern offset previous 0 cs = (offset, a) ::
      matchesFrom pattern (offset + utf16Length (cs.take n)) previous' 0 (cs.drop n) := by
  have hpos := h.pos hmatch
  have hle := h.le hmatch
  cases cs with
  | nil => exact absurd hle (Nat.not_le.mpr hpos)
  | cons c cs =>
    obtain ⟨k, rfl⟩ := Nat.exists_eq_add_of_lt hpos
    rw [Nat.zero_add] at hmatch ⊢
    obtain ⟨previous', hskip⟩ :=
      @matchesFrom_skip _ pattern (offset + utf16Width c) (some c) k cs
    refine ⟨previous', ?_⟩
    rw [matchesFrom, hmatch, List.take_succ_cons, utf16Length_cons, List.drop_succ_cons,
      ← Nat.add_assoc, ← hskip]
    rfl

/-- The value of an occurrence, with its offset in UTF-16 units behind `offset`. -/
def located (offset : Nat) (cs : List Char) (m : Occurrence α) : Nat × α :=
  (offset + utf16Length (cs.take m.start), m.value)

theorem map_located_shift (offset k : Nat) (cs : List Char) (found : List (Occurrence α)) :
    (found.map (.shift k)).map (located offset cs) =
      found.map (located (offset + utf16Length (cs.take k)) (cs.drop k)) := by
  rw [List.map_map]
  refine List.map_congr_left fun m _ => ?_
  rw [Function.comp_apply, located, located, Occurrence.shift, List.take_add, utf16Length_append,
    Nat.add_assoc]

theorem matchesFrom_sweep (h : pattern.LooksAhead) (offset : Nat) (previous : Option Char)
    (cs : List Char) :
    ∃ found, matchesFrom pattern offset previous 0 cs = found.map (located offset cs) ∧
      IsSweep (pattern.OccursIn cs) found := by
  -- The search goes on behind one character, or behind a match.
  induction hlength : cs.length using Nat.strongRecOn generalizing offset previous cs with
  | ind length ih =>
  cases hmatch : pattern previous cs with
  | none =>
    have hnone : pattern none cs = none := (h.forward none previous cs).trans hmatch
    cases cs with
    | nil =>
      refine ⟨[], rfl, fun m hm => (List.not_mem_nil hm).elim, .nil, fun m hm => ?_⟩
      rw [OccursIn, List.drop_nil, hnone] at hm
      cases hm
    | cons c cs =>
      rw [List.length_cons] at hlength
      obtain ⟨found, hfound, hsweep⟩ :=
        ih cs.length (by omega) (offset + utf16Width c) (some c) cs rfl
      refine ⟨_, ?_, isSweep_of_none hnone hsweep⟩
      rw [matchesFrom, hmatch, map_located_shift]
      exact hfound
  | some result =>
    obtain ⟨a, n⟩ := result
    have hfirst : pattern none cs = some (a, n) := (h.forward none previous cs).trans hmatch
    obtain ⟨previous', hstep⟩ := matchesFrom_match h hmatch offset
    have hlt : (cs.drop n).length < length := by
      have hpos := h.pos hmatch
      have hle := h.le hmatch
      rw [List.length_drop]
      omega
    obtain ⟨found, hfound, hsweep⟩ :=
      ih _ hlt (offset + utf16Length (cs.take n)) previous' (cs.drop n) rfl
    refine ⟨_, ?_, isSweep_of_match hfirst hsweep⟩
    rw [hstep, hfound, List.map_cons, map_located_shift]
    rfl

/-- The matches of a pattern are found by sweeping the text. -/
theorem matchesIn_sweep (h : pattern.LooksAhead) (cs : List Char) :
    ∃ found, pattern.matchesIn cs = found.map (fun m => (utf16Length (cs.take m.start), m.value)) ∧
      IsSweep (pattern.OccursIn cs) found := by
  obtain ⟨found, hfound, hsweep⟩ := matchesFrom_sweep h 0 none cs
  refine ⟨found, hfound.trans (List.map_congr_left fun m _ => ?_), hsweep⟩
  rw [located, Nat.zero_add]

end Pattern

end SymbolAtlas
