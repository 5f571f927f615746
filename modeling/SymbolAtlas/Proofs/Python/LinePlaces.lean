import SymbolAtlas.Proofs.MergedDeclarations
import SymbolAtlas.Proofs.Python.LineReferences
import SymbolAtlas.Proofs.Python.MatchedLines

/-! # Places without a syntax tree

What the lines of a source tell is placed where the source has it: an import at the word that begins
it, a declaration at the name that it declares, a reference at its own word. Imports and references
come in reading order.
-/

namespace SymbolAtlas.Python.Lines

open Identifier

variable {cs : List Char}

/-! ## Imports -/

def IsAtWord (source : List Char) (i : Import) : Prop :=
  match i.clause with
  | .plain _ => StandsAt source "import".toList i.position
  | .fromModule _ => StandsAt source "from".toList i.position
  | _ => False

/-- The imports that lines make with the offsets of the words that begin them. -/
def placedImports (cs : List Char) : List (Nat × Import) :=
  let index := LineIndex.ofList cs
  let plain := (importLine.matchesIn cs).flatMap fun (offset, indent, entries) =>
    (plainImports (index.locate (offset + indent)) entries).map fun i => (offset + indent, i)
  let fromLines := (fromLine.matchesIn cs).map fun (offset, indent, module, entries) =>
    (offset + indent, fromImport (index.locate (offset + indent)) module entries)
  plain ++ fromLines

theorem imports_eq (content : String) : imports content =
    ((placedImports content.toList).mergeSort fun a b => a.1 ≤ b.1).map (·.2) := rfl

/-- An import that a line makes stands at the word that begins it. -/
theorem exists_of_mem_placedImports {placed : Nat × Import} (h : placed ∈ placedImports cs) :
    ∃ P word, StandsAtOffset P cs word placed.1 ∧
      placed.2.position = (LineIndex.ofList cs).locate placed.1 ∧
      (StandsAt cs word placed.2.position → IsAtWord cs placed.2) := by
  simp only [placedImports, List.mem_append, List.mem_flatMap, List.mem_map, Prod.exists] at h
  rcases h with ⟨offset, indent, entries, hm, i, hi, rfl⟩ |
    ⟨offset, indent, module, entries, hm, rfl⟩
  · obtain ⟨b, -, rfl⟩ := List.mem_map.mp hi
    refine ⟨fun _ => True, "import".toList, ?_, rfl, id⟩
    refine Pattern.standsAtOffset_of_mem_matchesIn (fun _ => "import".toList) Prod.fst
      (fun hmatch => ?_) hm
    obtain ⟨gap, rest, hcs, hindent⟩ := importLine_eq_some hmatch
    exact ⟨gap, rest, hcs, hindent, trivial⟩
  · refine ⟨fun _ => True, "from".toList, ?_, rfl, id⟩
    refine Pattern.standsAtOffset_of_mem_matchesIn (fun _ => "from".toList) Prod.fst
      (fun hmatch => ?_) hm
    obtain ⟨gap, rest, hcs, hindent⟩ := fromLine_eq_some hmatch
    exact ⟨gap, rest, hcs, hindent, trivial⟩

theorem isAtWord_of_mem_imports {content : String} {i : Import} (h : i ∈ imports content) :
    IsAtWord content.toList i := by
  rw [imports_eq, List.mem_map] at h
  obtain ⟨placed, hplaced, rfl⟩ := h
  rw [List.mem_mergeSort] at hplaced
  obtain ⟨_, _, hstands, hposition, hword⟩ := exists_of_mem_placedImports hplaced
  exact hword (hposition ▸ hstands.standsAt)

theorem pairwise_imports (content : String) :
    (imports content).Pairwise fun i j => ¬ j.position.before i.position = true := by
  rw [imports_eq, List.pairwise_map]
  refine (pairwise_mergeSort_key (placedImports content.toList)).imp_of_mem ?_
  intro placed placed' hplaced hplaced' hle
  rw [List.mem_mergeSort] at hplaced hplaced'
  obtain ⟨_, _, hstands, hposition, -⟩ := exists_of_mem_placedImports hplaced
  obtain ⟨_, _, hstands', hposition', -⟩ := exists_of_mem_placedImports hplaced'
  rw [hposition, hposition']
  exact hstands.not_before_of_le hstands' hle

/-! ## Declarations -/

theorem standsAt_of_mem_declarations {content : String} {d : Declaration}
    (h : d ∈ declarations content) : StandsAt content.toList d.name.toList d.position := by
  obtain ⟨found, hperm, -, heq⟩ := exists_declarations_eq content
  rw [heq] at h
  obtain ⟨placed, hplaced, rfl⟩ := List.mem_map.mp (hperm.mem_iff.mp (Declarations.mem_ofFound h))
  obtain ⟨_, hstands⟩ := exists_standsAtOffset_of_mem_placedLines hplaced
  exact hstands.standsAt

/-! ## References -/

/-- The name is a maximal word of a line that begins in a column, and no comment begins before it:
nothing of the word precedes it or follows it on the line. -/
def IsWordAt (line : List Char) (name : String) (column : Int) : Prop :=
  ∃ head rest, line = head ++ (name.toList ++ rest) ∧ column = utf16Length head + 1 ∧
    name.toList.head?.any isAsciiWordStart = true ∧ name.toList.all isAsciiWord = true ∧
    head.getLast?.any isAsciiWord = false ∧ rest.head?.any isAsciiWord = false ∧ '#' ∉ head

/-- What is left out of a line begins with a character that belongs to no word. -/
theorem exists_comment (line : List Char) :
    ∃ comment, line = withoutComment line ++ comment ∧
      comment.head?.any isAsciiWord = false := by
  refine ⟨_, (takeWhile_append_drop (· != '#') line).symm, ?_⟩
  have hend := head?_drop_takeWhile (· != '#') line
  cases hhead : (line.drop (line.takeWhile (· != '#')).length).head? with
  | none => rfl
  | some c =>
    rw [hhead] at hend
    obtain rfl : c = '#' := by simpa using hend
    decide

/-- A match of the word pattern before the comment of a line is a word of the line. -/
theorem isWordAt_of_mem_matchesIn {line : List Char} {m : Nat × String}
    (hm : m ∈ word.matchesIn (withoutComment line)) : IsWordAt line m.2 (m.1 + 1) := by
  obtain ⟨head, after, n, hcode, hoffset, hmatch⟩ := Pattern.exists_of_mem_matchesIn hm
  obtain ⟨hhead, hname, hstart, -⟩ := exists_of_word hmatch
  obtain ⟨comment, hline, hcomment⟩ := exists_comment line
  have hafter := takeWhile_append_drop isAsciiWord after
  refine ⟨head, after.drop (after.takeWhile isAsciiWord).length ++ comment, ?_, by rw [hoffset],
    ?_, ?_, hhead, ?_, ?_⟩
  · rw [hname, ← List.append_assoc (after.takeWhile isAsciiWord), hafter, ← List.append_assoc,
      ← hcode, ← hline]
  · rw [hname]
    cases after with
    | nil => cases hstart
    | cons c after =>
      rw [List.takeWhile_cons_of_pos (isAsciiWord_of_start hstart)]
      exact hstart
  · rw [hname]
    exact List.all_takeWhile
  · -- The word ends where the comment begins, or before a character that no word goes on with.
    have hend := head?_drop_takeWhile isAsciiWord after
    cases hrest : after.drop (after.takeWhile isAsciiWord).length with
    | nil => exact hcomment
    | cons c rest =>
      rw [hrest] at hend
      exact hend
  · intro hhash
    have hmem : '#' ∈ withoutComment line := hcode ▸ List.mem_append_left _ hhash
    exact absurd (List.all_eq_true.mp List.all_takeWhile '#' hmem) (by decide)

/-- A reference on a line is a word of the line, and not one of the language. -/
theorem isWordAt_of_mem_lineReferences {number : Nat} {line : List Char} {r : Reference}
    (h : r ∈ lineReferences number line) :
    isKeyword r.name = false ∧ IsWordAt line r.name r.position.column := by
  rw [lineReferences] at h
  split at h
  · cases h
  · obtain ⟨m, hm, rfl⟩ := List.mem_map.mp h
    obtain ⟨hm, hkeyword⟩ := List.mem_filter.mp hm
    exact ⟨by simpa using hkeyword, isWordAt_of_mem_matchesIn hm⟩

theorem exists_of_mem_referencesFrom {number : Nat} {lines : List (List Char)} {r : Reference}
    (h : r ∈ referencesFrom number lines) : ∃ (i : Nat) (line : List Char),
      lines[i]? = some line ∧ r.position.line = number + i ∧
        r ∈ lineReferences (number + i) line := by
  induction lines generalizing number with
  | nil => cases h
  | cons line lines ih =>
    rcases List.mem_append.mp h with h | h
    · exact ⟨0, line, rfl, line_of_mem_lineReferences h, h⟩
    · obtain ⟨i, line', hline, hposition, hmem⟩ := ih h
      refine ⟨i + 1, line', hline, ?_, ?_⟩
      · omega
      · rwa [Nat.add_assoc, Nat.add_comm 1] at hmem

/-- The references on one line stand in order. -/
theorem pairwise_lineReferences (number : Nat) (line : List Char) :
    (lineReferences number line).Pairwise fun r s => r.position.before s.position = true := by
  rw [lineReferences]
  split
  · exact .nil
  · have hordered := @Pattern.pairwise_matchesIn _ word (fun _ => 0)
      (fun _ _ _ _ hmatch => (exists_of_word hmatch).2.2.2) (withoutComment line)
    rw [List.pairwise_map]
    refine (hordered.sublist List.filter_sublist).imp fun {m next} hlt => ?_
    rw [Position.before_iff]
    dsimp only
    omega

theorem pairwise_referencesFrom (number : Nat) (lines : List (List Char)) :
    (referencesFrom number lines).Pairwise fun r s => r.position.before s.position = true := by
  induction lines generalizing number with
  | nil => exact .nil
  | cons line lines ih =>
    refine List.pairwise_append.mpr ⟨pairwise_lineReferences number line, ih _, ?_⟩
    intro r hr s hs
    have hline := line_of_mem_lineReferences hr
    have hle := le_of_mem_referencesFrom hs
    rw [Position.before_iff]
    omega

/-! ## A source -/

/-- What the lines of a source tell is placed where the source has it. -/
theorem lines_places (content : String) :
    (∀ i ∈ imports content, IsAtWord content.toList i) ∧
    (imports content).Pairwise (fun i j => ¬ j.position.before i.position = true) ∧
    (∀ d ∈ declarations content, StandsAt content.toList d.name.toList d.position) ∧
    (references content).Pairwise (fun r s => r.position.before s.position = true) ∧
    ∀ r ∈ references content, isKeyword r.name = false ∧
      ∃ (i : Nat) (line : List Char), (splitAt '\n' content.toList)[i]? = some line ∧
        r.position.line = i + 1 ∧ IsWordAt line r.name r.position.column := by
  refine ⟨fun _ => isAtWord_of_mem_imports, pairwise_imports content,
    fun _ => standsAt_of_mem_declarations, pairwise_referencesFrom 1 _, fun r hr => ?_⟩
  obtain ⟨i, line, hline, hposition, hmem⟩ := exists_of_mem_referencesFrom hr
  obtain ⟨hkeyword, hword⟩ := isWordAt_of_mem_lineReferences hmem
  exact ⟨hkeyword, i, line, hline, by omega, hword⟩

end SymbolAtlas.Python.Lines
