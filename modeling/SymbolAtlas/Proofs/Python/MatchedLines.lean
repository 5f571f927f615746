import Mathlib.Data.Option.Basic
import SymbolAtlas.Proofs.Text.Cursor
import SymbolAtlas.Proofs.Text.Lines
import SymbolAtlas.Proofs.Text.MatchPlaces
import SymbolAtlas.Proofs.Text.SourceOrder
import SymbolAtlas.Python.Lines.Words

/-! # What lines match

A line that matches begins with a run of blanks and words, and what it is matched for stands right
behind: the word of an import, the name of a declaration. So its offset is that of the line and the
length of the run. The words before two names tell apart the forms of the lines that declare them,
so no name is matched by two forms.
-/

namespace SymbolAtlas.Python.Lines

open Identifier

variable {cs rest : List Char} {previous : Option Char} {n : Nat}

/-! ## Gaps, words and names -/

theorem eq_of_afterWord {word : String} (h : afterWord word cs = some rest) :
    cs = word.toList ++ rest := by
  rw [afterWord] at h
  split at h
  · rename_i hprefix
    obtain ⟨rest', rfl⟩ := List.isPrefixOf_iff_prefix.mp hprefix
    rw [List.drop_left] at h
    rw [Option.some.inj h]
  · cases h

def IsGap (gap : List Char) : Prop := ∀ c ∈ gap, isSpaceOrTab c = true

theorem isGap_takeWhile (cs : List Char) : IsGap (cs.takeWhile isSpaceOrTab) :=
  List.all_eq_true.mp List.all_takeWhile

theorem toNat_of_isSpaceOrTab {c : Char} (h : isSpaceOrTab c = true) : c.toNat < 0x80 := by
  rw [isSpaceOrTab, Bool.or_eq_true, beq_iff_eq, beq_iff_eq] at h
  rcases h with rfl | rfl <;> decide

theorem IsGap.utf16Length_eq {gap : List Char} (h : IsGap gap) : utf16Length gap = gap.length :=
  utf16Length_of_ascii fun c hc => toNat_of_isSpaceOrTab (h c hc)

/-- The gap at the head of a text, and what follows it. -/
theorem exists_gap (cs : List Char) :
    ∃ gap, IsGap gap ∧ utf16Length gap = gapLength cs ∧ cs = gap ++ cs.drop (gapLength cs) :=
  ⟨_, isGap_takeWhile cs, (isGap_takeWhile cs).utf16Length_eq,
    (takeWhile_append_drop isSpaceOrTab cs).symm⟩

theorem exists_of_afterGap (h : afterGap cs = some (n, rest)) :
    ∃ gap, IsGap gap ∧ utf16Length gap = n ∧ cs = gap ++ rest := by
  obtain ⟨gap, hgap, hlength, hcs⟩ := exists_gap cs
  unfold afterGap at h
  split at h
  · cases h
  · rename_i k hk
    cases h
    rw [hk] at hlength hcs
    exact ⟨gap, hgap, hlength, hcs⟩

/-- The name at the head of a text is a run of word characters that goes on as far as it can. -/
theorem nameAhead_eq_some {name : List Char} (h : nameAhead cs = some name) :
    name = cs.takeWhile isAsciiWord ∧ cs.head?.any isAsciiWordStart = true := by
  unfold nameAhead at h
  split at h
  · split at h
    · exact ⟨(Option.some.inj h).symm, by assumption⟩
    · cases h
  · cases h

theorem exists_of_nameAhead {name : List Char} (h : nameAhead cs = some name) :
    0 < name.length ∧ ∃ rest, cs = name ++ rest := by
  obtain ⟨rfl, hstart⟩ := nameAhead_eq_some h
  refine ⟨?_, _, (takeWhile_append_drop isAsciiWord cs).symm⟩
  cases cs with
  | nil => cases hstart
  | cons c cs =>
    have hc : isAsciiWord c = true := by
      have hstart : isAsciiWordStart c = true := hstart
      simp only [isAsciiWordStart, isAsciiWord, Bool.or_eq_true] at hstart ⊢
      exact hstart.imp_left .inl
    rw [List.takeWhile_cons_of_pos hc]
    exact Nat.zero_lt_succ _

/-- A match of the word pattern is a word that does not go on, with no word before it. -/
theorem exists_of_word {w : String} (h : word previous cs = some (w, n)) :
    previous.any isAsciiWord = false ∧ w.toList = cs.takeWhile isAsciiWord ∧
      cs.head?.any isAsciiWordStart = true ∧ 0 < n := by
  simp only [word, Option.bind_eq_bind, Option.bind_eq_some_iff] at h
  obtain ⟨_, hprevious, name, hname, heq⟩ := h
  cases heq
  obtain ⟨hname', hstart⟩ := nameAhead_eq_some hname
  rw [String.toList_ofList]
  refine ⟨?_, hname', hstart, (exists_of_nameAhead hname).1⟩
  cases hany : previous.any isAsciiWord with
  | false => rfl
  | true =>
    rw [hany] at hprevious
    cases hprevious

/-! ## Lines that import -/

theorem importLine_eq_some {indent : Nat} {entries : List Char}
    (h : importLine previous cs = some ((indent, entries), n)) :
    ∃ gap rest, cs = gap ++ ("import".toList ++ rest) ∧ indent = utf16Length gap := by
  simp only [importLine, Option.bind_eq_bind, Option.bind_eq_some_iff] at h
  obtain ⟨_, _, rest, hword, _, _, heq⟩ := h
  cases heq
  obtain ⟨gap, _, hlength, hcs⟩ := exists_gap cs
  refine ⟨gap, rest, ?_, hlength.symm⟩
  rw [← eq_of_afterWord hword]
  exact hcs

theorem fromLine_eq_some {indent : Nat} {module : String} {entries : List Char}
    (h : fromLine previous cs = some ((indent, module, entries), n)) :
    ∃ gap rest, cs = gap ++ ("from".toList ++ rest) ∧ indent = utf16Length gap := by
  simp only [fromLine, Option.bind_eq_bind, Option.bind_eq_some_iff] at h
  obtain ⟨_, _, rest, hword, _, _, _, _, _, _, _, _, _, _, _, _, heq⟩ := h
  cases heq
  obtain ⟨gap, _, hlength, hcs⟩ := exists_gap cs
  refine ⟨gap, rest, ?_, hlength.symm⟩
  rw [← eq_of_afterWord hword]
  exact hcs

/-! ## Lines that declare -/

/-- The last character of a text that is not in a gap at its end. -/
def lastBeyondGap (cs : List Char) : Option Char := (cs.reverse.dropWhile isSpaceOrTab).head?

/-- The name of a line stands behind a run of characters, and the line is matched beyond where the
name begins. -/
structure Line.Follows (line : Line) (run cs : List Char) (n : Nat) : Prop where
  eq_append : ∃ rest, cs = run ++ (line.name.toList ++ rest)
  column_eq : line.column = utf16Length run
  column_lt : line.column < n

/-- The name of a line may follow a word and a gap. -/
theorem exists_follows (front : List Char) {word : String} {rest rest' rest'' name : List Char}
    {k : Nat} (hword : afterWord word rest = some rest')
    (hgap : afterGap rest' = some (k, rest'')) (hname : nameAhead rest'' = some name) :
    0 < name.length ∧ ∃ gap, IsGap gap ∧ ∀ {line : Line} {n}, line.name = String.ofList name →
      line.column = utf16Length front + utf16Length word.toList + k → line.column < n →
      line.Follows (front ++ (word.toList ++ gap)) (front ++ rest) n := by
  obtain rfl := eq_of_afterWord hword
  obtain ⟨gap, hisGap, hlength, rfl⟩ := exists_of_afterGap hgap
  obtain ⟨hpos, rest, rfl⟩ := exists_of_nameAhead hname
  refine ⟨hpos, gap, hisGap, fun hlineName hcolumn hlt => ⟨⟨rest, ?_⟩, ?_, hlt⟩⟩
  · rw [hlineName, String.toList_ofList, List.append_assoc, List.append_assoc]
  · rw [hcolumn, utf16Length_append, utf16Length_append, hlength, Nat.add_assoc]

theorem functionLine_eq_some {line : Line} (h : functionLine previous cs = some (line, n)) :
    ∃ front gap, IsGap gap ∧ line.Follows (front ++ ("def".toList ++ gap)) cs n := by
  simp only [functionLine, Option.bind_eq_bind] at h
  cases hasync : (afterWord "async" cs).bind afterGap with
  | none =>
    simp only [hasync, Option.bind_eq_some_iff] at h
    obtain ⟨_, _, _, hword, _, hgap, _, hname, _, _, heq⟩ := h
    cases heq
    obtain ⟨-, gap, hisGap, hfollows⟩ := exists_follows [] hword hgap hname
    refine ⟨[], gap, hisGap, hfollows rfl rfl ?_⟩
    dsimp only
    omega
  | some found =>
    obtain ⟨lead, rest⟩ := found
    simp only [hasync, Option.bind_eq_some_iff] at h
    obtain ⟨_, _, _, hword, _, hgap, _, hname, _, _, heq⟩ := h
    cases heq
    obtain ⟨_, hasync, hlead⟩ := Option.bind_eq_some_iff.mp hasync
    obtain rfl := eq_of_afterWord hasync
    obtain ⟨front, _, rfl, rfl⟩ := exists_of_afterGap hlead
    obtain ⟨-, gap, hisGap, hfollows⟩ :=
      exists_follows ("async".toList ++ front) hword hgap hname
    refine ⟨"async".toList ++ front, gap, hisGap, ?_⟩
    rw [← List.append_assoc "async".toList front]
    refine hfollows rfl ?_ ?_
    · rw [utf16Length_append]
      rfl
    · dsimp only
      omega

theorem classLine_eq_some {line : Line} (h : classLine previous cs = some (line, n)) :
    ∃ gap, IsGap gap ∧ line.Follows ("class".toList ++ gap) cs n := by
  simp only [classLine, Option.bind_eq_bind, Option.bind_eq_some_iff] at h
  obtain ⟨_, _, _, hword, _, hgap, _, hname, heq⟩ := h
  cases heq
  obtain ⟨hpos, gap, hisGap, hfollows⟩ := exists_follows [] hword hgap hname
  refine ⟨gap, hisGap, ?_⟩
  rw [← List.nil_append ("class".toList ++ gap), ← List.nil_append cs]
  apply hfollows
  · rfl
  · rfl
  · dsimp only
    omega

theorem assignmentLine_eq_some {line : Line} (h : assignmentLine previous cs = some (line, n)) :
    atLineStart previous = true ∧ line.Follows [] cs n := by
  simp only [assignmentLine, Option.bind_eq_bind, Option.bind_eq_some_iff] at h
  obtain ⟨_, hguard, name, hname, _, _, h⟩ := h
  have hstart : atLineStart previous = true := by
    cases hline : atLineStart previous with
    | true => rfl
    | false =>
      rw [hline] at hguard
      cases hguard
  refine ⟨hstart, ?_⟩
  split at h
  · simp only [Option.bind_eq_some_iff] at h
    obtain ⟨_, _, heq⟩ := h
    cases heq
    obtain ⟨-, rest, hcs⟩ := exists_of_nameAhead hname
    refine ⟨⟨rest, ?_⟩, rfl, Nat.zero_lt_succ _⟩
    rw [String.toList_ofList]
    exact hcs
  · cases h

/-! ## The names that lines declare -/

/-- The lines that declare names, each with the offset of its name. -/
def placedLines (cs : List Char) : List (Nat × Line) :=
  let assignments := (assignmentLine.matchesIn cs).filter fun (_, line) => !isKeyword line.name
  (functionLine.matchesIn cs ++ classLine.matchesIn cs ++ assignments).map fun (offset, line) =>
    (offset + line.column, line)

theorem lastBeyondGap_gap {gap : List Char} (h : IsGap gap) (front : List Char) :
    lastBeyondGap (front ++ gap) = lastBeyondGap front := by
  rw [lastBeyondGap, List.reverse_append, List.dropWhile_append_of_pos]
  · rfl
  · exact fun c hc => h c (List.mem_reverse.mp hc)

theorem standsAtOffset_function {m : Nat × Line} (hm : m ∈ functionLine.matchesIn cs) :
    StandsAtOffset (lastBeyondGap · = some 'f') cs m.2.name.toList (m.1 + m.2.column) := by
  refine Pattern.standsAtOffset_of_mem_matchesIn (·.name.toList) Line.column (fun hmatch => ?_) hm
  obtain ⟨front, gap, hgap, ⟨rest, hcs⟩, hcolumn, -⟩ := functionLine_eq_some hmatch
  refine ⟨_, rest, hcs, hcolumn, ?_⟩
  rw [← List.append_assoc, ← List.append_assoc, lastBeyondGap_gap hgap, lastBeyondGap,
    List.reverse_append]
  rfl

theorem standsAtOffset_class {m : Nat × Line} (hm : m ∈ classLine.matchesIn cs) :
    StandsAtOffset (lastBeyondGap · = some 's') cs m.2.name.toList (m.1 + m.2.column) := by
  refine Pattern.standsAtOffset_of_mem_matchesIn (·.name.toList) Line.column (fun hmatch => ?_) hm
  obtain ⟨gap, hgap, ⟨rest, hcs⟩, hcolumn, -⟩ := classLine_eq_some hmatch
  refine ⟨_, rest, hcs, hcolumn, ?_⟩
  rw [← List.append_assoc, lastBeyondGap_gap hgap, lastBeyondGap, List.reverse_append]
  rfl

theorem lastBeyondGap_of_atLineStart {before : List Char}
    (h : atLineStart before.getLast? = true) : atLineStart (lastBeyondGap before) = true := by
  rw [List.getLast?_eq_head?_reverse] at h
  rw [lastBeyondGap]
  cases hreverse : before.reverse with
  | nil => rfl
  | cons c cs =>
    rw [hreverse] at h
    have hc : isSpaceOrTab c = false := by
      by_contra hc
      rw [Bool.not_eq_false, isSpaceOrTab, Bool.or_eq_true, beq_iff_eq, beq_iff_eq] at hc
      rcases hc with rfl | rfl <;> cases h
    rw [List.dropWhile_cons_of_neg (Bool.eq_false_iff.mp hc)]
    exact h

theorem standsAtOffset_assignment {m : Nat × Line} (hm : m ∈ assignmentLine.matchesIn cs) :
    StandsAtOffset (fun before => atLineStart (lastBeyondGap before) = true) cs m.2.name.toList
      (m.1 + m.2.column) := by
  refine Pattern.standsAtOffset_of_mem_matchesIn (·.name.toList) Line.column (fun hmatch => ?_) hm
  obtain ⟨hstart, ⟨rest, hcs⟩, hcolumn, -⟩ := assignmentLine_eq_some hmatch
  refine ⟨[], rest, hcs, hcolumn, ?_⟩
  rw [List.append_nil]
  exact lastBeyondGap_of_atLineStart hstart

/-- Each line that declares a name stands with its name at its offset. -/
theorem exists_standsAtOffset_of_mem_placedLines {placed : Nat × Line}
    (h : placed ∈ placedLines cs) : ∃ P, StandsAtOffset P cs placed.2.name.toList placed.1 := by
  simp only [placedLines, List.mem_map, List.mem_append, List.mem_filter] at h
  obtain ⟨m, (hm | hm) | ⟨hm, -⟩, rfl⟩ := h
  · exact ⟨_, standsAtOffset_function hm⟩
  · exact ⟨_, standsAtOffset_class hm⟩
  · exact ⟨_, standsAtOffset_assignment hm⟩

/-- No two names that lines declare stand at one offset. -/
theorem pairwise_placedLines (cs : List Char) :
    (placedLines cs).Pairwise fun placed placed' => placed.1 ≠ placed'.1 := by
  have hne {pattern : Pattern Line}
      (h : ∀ previous cs a n, pattern previous cs = some (a, n) → a.column < n) :
      (pattern.matchesIn cs).Pairwise fun m m' => m.1 + m.2.column ≠ m'.1 + m'.2.column :=
    (Pattern.pairwise_matchesIn Line.column h cs).imp Nat.ne_of_lt
  simp only [placedLines, List.pairwise_map, List.pairwise_append]
  refine ⟨⟨hne fun _ _ _ _ h => ?_, hne fun _ _ _ _ h => ?_, fun m hm m' hm' => ?_⟩,
    (hne fun _ _ _ _ h => ?_).sublist List.filter_sublist, fun m hm m' hm' => ?_⟩
  · obtain ⟨_, _, _, hfollows⟩ := functionLine_eq_some h
    exact hfollows.column_lt
  · obtain ⟨_, _, hfollows⟩ := classLine_eq_some h
    exact hfollows.column_lt
  · refine (standsAtOffset_function hm).ne (standsAtOffset_class hm') fun _ hf hs => ?_
    rw [hf] at hs
    cases hs
  · exact (assignmentLine_eq_some h).2.column_lt
  · -- At the start of a line there is no word before a name.
    have hm' := standsAtOffset_assignment (List.mem_of_mem_filter hm')
    rcases List.mem_append.mp hm with hm | hm
    · refine (standsAtOffset_function hm).ne hm' fun _ hf hstart => ?_
      rw [hf] at hstart
      cases hstart
    · refine (standsAtOffset_class hm).ne hm' fun _ hs hstart => ?_
      rw [hs] at hstart
      cases hstart

/-- The declarations that lines make, form by form: functions, classes, variables. -/
def foundDeclarations (content : String) : List Declaration :=
  (placedLines content.toList).map fun (offset, line) =>
    line.declaration ((LineIndex.ofList content.toList).locate offset)

/-- The declarations that lines make are declared in the order in which they stand. -/
theorem exists_declarations_eq (content : String) :
    ∃ found, found.Perm (foundDeclarations content) ∧
      found.Pairwise (fun d e => d.position.before e.position = true) ∧
      declarations content = .ofFound found := by
  refine ⟨_, (List.mergeSort_perm (placedLines content.toList) _).map _, ?_, rfl⟩
  rw [List.pairwise_map]
  refine (pairwise_mergeSort_of_ne (pairwise_placedLines content.toList)).imp_of_mem ?_
  intro placed placed' hplaced hplaced' hlt
  rw [List.mem_mergeSort] at hplaced hplaced'
  obtain ⟨_, hstands⟩ := exists_standsAtOffset_of_mem_placedLines hplaced
  obtain ⟨_, hstands'⟩ := exists_standsAtOffset_of_mem_placedLines hplaced'
  exact hstands.before_of_lt hstands' hlt

end SymbolAtlas.Python.Lines
