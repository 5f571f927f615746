import SymbolAtlas.Proofs.Text.ReadingOrder
import SymbolAtlas.Text.Matches

/-! # Where matches stand

A match stands where the text before it ends, and the pattern has seen the last character of that
text. Matches do not overlap, so whatever stands inside a match stands before the next one. Offsets
that were counted in units lead back to the places to which reading leads.
-/

namespace SymbolAtlas

/-! ## Places of a text -/

def StandsAt (source part : List Char) (place : Position) : Prop :=
  ∃ before after, source = before ++ (part ++ after) ∧ place = Position.start.after before

/-- The text `part` stands at an offset of a source, and what stands before it has a property. -/
def StandsAtOffset (P : List Char → Prop) (source part : List Char) (offset : Nat) : Prop :=
  ∃ before after, source = before ++ (part ++ after) ∧ offset = utf16Length before ∧ P before

/-! ## Offsets -/

section Offsets

variable {xs xs' ys ys' : List Char}

/-- Of two heads of a text the shorter one is the head of the other. -/
theorem exists_append_of_utf16Length_le (happend : xs ++ xs' = ys ++ ys')
    (h : utf16Length xs ≤ utf16Length ys) : ∃ more, ys = xs ++ more := by
  rcases List.append_eq_append_iff.mp happend with ⟨more, rfl, -⟩ | ⟨more, rfl, -⟩
  · exact ⟨more, rfl⟩
  · obtain rfl : more = [] := by
      by_contra hne
      have hpos := utf16Length_pos hne
      rw [utf16Length_append] at h
      omega
    exact ⟨[], by rw [List.append_nil, List.append_nil]⟩

/-- An offset of a text determines what stands before it. -/
theorem eq_of_utf16Length_eq (happend : xs ++ xs' = ys ++ ys')
    (h : utf16Length xs = utf16Length ys) : xs = ys := by
  obtain ⟨more, rfl⟩ := exists_append_of_utf16Length_le happend (Nat.le_of_eq h)
  obtain ⟨more', hmore⟩ :=
    exists_append_of_utf16Length_le happend.symm (Nat.le_of_eq h.symm)
  rw [List.append_assoc, List.self_eq_append_right, List.append_eq_nil_iff] at hmore
  rw [hmore.1, List.append_nil]

end Offsets

namespace StandsAtOffset

variable {P Q : List Char → Prop} {source part part' : List Char} {offset offset' : Nat}

theorem standsAt (h : StandsAtOffset P source part offset) :
    StandsAt source part ((LineIndex.ofList source).locate offset) := by
  obtain ⟨before, after, rfl, rfl, -⟩ := h
  exact ⟨before, after, rfl, LineIndex.locate_prefix before _⟩

/-- What different texts stand before stands at different offsets. -/
theorem ne (h : StandsAtOffset P source part offset) (h' : StandsAtOffset Q source part' offset')
    (hdisjoint : ∀ before, P before → ¬ Q before) : offset ≠ offset' := by
  obtain ⟨before, _, hsource, rfl, hbefore⟩ := h
  obtain ⟨before', _, hsource', rfl, hbefore'⟩ := h'
  intro heq
  obtain rfl := eq_of_utf16Length_eq (hsource.symm.trans hsource') heq
  exact hdisjoint _ hbefore hbefore'

/-- A later offset is a later place. -/
theorem before_of_lt (h : StandsAtOffset P source part offset)
    (h' : StandsAtOffset Q source part' offset') (hlt : offset < offset') :
    ((LineIndex.ofList source).locate offset).before
      ((LineIndex.ofList source).locate offset') = true := by
  obtain ⟨before, after, hsource, rfl, -⟩ := h
  obtain ⟨before', after', rfl, rfl, -⟩ := h'
  obtain ⟨more, rfl⟩ := exists_append_of_utf16Length_le hsource.symm (Nat.le_of_lt hlt)
  have hne : more ≠ [] := by
    rintro rfl
    rw [List.append_nil] at hlt
    exact absurd hlt (Nat.lt_irrefl _)
  rw [LineIndex.locate_prefix, List.append_assoc, LineIndex.locate_prefix, Position.after_append]
  exact Position.before_after hne _

/-- An offset that is no earlier is no earlier place. -/
theorem not_before_of_le (h : StandsAtOffset P source part offset)
    (h' : StandsAtOffset Q source part' offset') (hle : offset ≤ offset') :
    ¬ ((LineIndex.ofList source).locate offset').before
      ((LineIndex.ofList source).locate offset) = true := by
  rcases Nat.lt_or_eq_of_le hle with hlt | rfl
  · have hbefore := h.before_of_lt h' hlt
    rw [Position.before_iff] at *
    omega
  · rw [Position.before_iff]
    omega

end StandsAtOffset

namespace Pattern

variable {α : Type} {pattern : Pattern α} {offset skip : Nat} {previous : Option Char}
  {cs : List Char} {m : Nat × α}

/-! ## Matches -/

/-- A match is one of what follows some head of the text. -/
theorem exists_of_mem_matchesFrom (h : m ∈ matchesFrom pattern offset previous skip cs) :
    ∃ before after n, cs = before ++ after ∧ m.1 = offset + utf16Length before ∧
      pattern (before.getLast?.or previous) after = some (m.2, n) := by
  induction cs generalizing offset previous skip with
  | nil =>
    rw [matchesFrom] at h
    cases h
  | cons c cs ih =>
    have htail {k : Nat} (h : m ∈ matchesFrom pattern (offset + utf16Width c) (some c) k cs) :
        ∃ before after n, c :: cs = before ++ after ∧ m.1 = offset + utf16Length before ∧
          pattern (before.getLast?.or previous) after = some (m.2, n) := by
      obtain ⟨before, after, n, rfl, hoffset, hmatch⟩ := ih h
      refine ⟨c :: before, after, n, rfl, ?_, ?_⟩
      · rw [hoffset, utf16Length_cons, Nat.add_assoc]
      · rw [getLast?_cons_or, hmatch]
    cases skip with
    | succ skip => exact htail h
    | zero =>
      rw [matchesFrom] at h
      split at h
      · rename_i a n hmatch
        rcases List.mem_cons.mp h with rfl | h
        · exact ⟨[], c :: cs, n, rfl, rfl, hmatch⟩
        · exact htail h
      · exact htail h

theorem exists_of_mem_matchesIn (h : m ∈ pattern.matchesIn cs) :
    ∃ before after n, cs = before ++ after ∧ m.1 = utf16Length before ∧
      pattern before.getLast? after = some (m.2, n) := by
  obtain ⟨before, after, n, hcs, hoffset, hmatch⟩ := exists_of_mem_matchesFrom h
  rw [Nat.zero_add] at hoffset
  rw [Option.or_none] at hmatch
  exact ⟨before, after, n, hcs, hoffset, hmatch⟩

/-- What the matches of a pattern always have behind a run of characters stands at the offset of the
match and the run. -/
theorem standsAtOffset_of_mem_matchesIn {P : List Char → Prop} (part : α → List Char)
    (column : α → Nat)
    (h : ∀ {before cs a n}, pattern before.getLast? cs = some (a, n) →
      ∃ run rest, cs = run ++ (part a ++ rest) ∧ column a = utf16Length run ∧ P (before ++ run))
    (hm : m ∈ pattern.matchesIn cs) : StandsAtOffset P cs (part m.2) (m.1 + column m.2) := by
  obtain ⟨before, after, n, rfl, hoffset, hmatch⟩ := exists_of_mem_matchesIn hm
  obtain ⟨run, rest, rfl, hcolumn, hbefore⟩ := h hmatch
  refine ⟨before ++ run, rest, (List.append_assoc _ _ _).symm, ?_, hbefore⟩
  rw [utf16Length_append, ← hoffset, ← hcolumn]

/-- No match begins among the characters that are skipped. -/
theorem le_of_mem_matchesFrom (h : m ∈ matchesFrom pattern offset previous skip cs) :
    offset + skip ≤ m.1 := by
  induction cs generalizing offset previous skip with
  | nil =>
    rw [matchesFrom] at h
    cases h
  | cons c cs ih =>
    have hwidth := utf16Width_pos c
    have htail {k : Nat} (h : m ∈ matchesFrom pattern (offset + utf16Width c) (some c) k cs) :
        offset + (k + 1) ≤ m.1 := by
      have := ih h
      omega
    cases skip with
    | succ skip => exact htail h
    | zero =>
      rw [matchesFrom] at h
      split at h
      · rcases List.mem_cons.mp h with rfl | h
        · exact Nat.le_refl _
        · have := htail h
          omega
      · have := htail h
        omega

/-- What stands inside each match stands in order. -/
theorem pairwise_matchesFrom (column : α → Nat)
    (h : ∀ previous cs a n, pattern previous cs = some (a, n) → column a < n) :
    (matchesFrom pattern offset previous skip cs).Pairwise fun m next =>
      m.1 + column m.2 < next.1 + column next.2 := by
  induction cs generalizing offset previous skip with
  | nil =>
    rw [matchesFrom]
    exact .nil
  | cons c cs ih =>
    cases skip with
    | succ skip => exact ih
    | zero =>
      rw [matchesFrom]
      split
      · rename_i a n hmatch
        refine .cons (fun next hnext => ?_) ih
        have hcolumn := h _ _ _ _ hmatch
        have hwidth := utf16Width_pos c
        have hle := le_of_mem_matchesFrom hnext
        show offset + column a < _
        omega
      · exact ih

theorem pairwise_matchesIn (column : α → Nat)
    (h : ∀ previous cs a n, pattern previous cs = some (a, n) → column a < n) (cs : List Char) :
    (pattern.matchesIn cs).Pairwise fun m next => m.1 + column m.2 < next.1 + column next.2 :=
  pairwise_matchesFrom column h

end Pattern

end SymbolAtlas
