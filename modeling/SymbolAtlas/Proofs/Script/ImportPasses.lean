import SymbolAtlas.Proofs.Script.RequireCall
import SymbolAtlas.Proofs.Token.Place
import SymbolAtlas.Token.Scan

/-! # The two passes that find `require` calls

The tokens of a source give its imports in order. A call that is found in the text is added
unless its module is required already, by the tokens or by an earlier call in the text. So nothing
that the text shows is lost, and nothing is listed twice.
-/

namespace SymbolAtlas

/-- What decides whether an import is listed already: its clause and the module it names. -/
def Import.target (i : Import) : ImportClause × String := (i.clause, i.source)

namespace Script

open Token

/-! ## Adding imports -/

/-- The imports that are added to those found, each when its turn comes. -/
def newcomers (found : List Import) : List Import → List Import
  | [] => []
  | i :: is =>
    if i.target ∈ found.map Import.target then newcomers found is
    else i :: newcomers (found ++ [i]) is

section Newcomers

variable {found is : List Import} {i : Import}

theorem any_iff_target_mem :
    (found.any fun j => j.clause == i.clause && j.source == i.source) = true ↔
      i.target ∈ found.map Import.target := by
  simp only [List.any_eq_true, Bool.and_eq_true, beq_iff_eq, List.mem_map, Import.target,
    Prod.mk.injEq]

theorem foldl_eq_newcomers (found is : List Import) :
    is.foldl (fun found i =>
      if found.any fun j => j.clause == i.clause && j.source == i.source then found
      else found ++ [i]) found = found ++ newcomers found is := by
  induction is generalizing found with
  | nil => exact (List.append_nil found).symm
  | cons i is ih =>
    rw [List.foldl_cons, newcomers]
    by_cases h : i.target ∈ found.map Import.target
    · rw [if_pos (any_iff_target_mem.mpr h), if_pos h, ih]
    · rw [if_neg (mt any_iff_target_mem.mp h), if_neg h, ih, List.append_assoc,
        List.singleton_append]

theorem newcomers_sublist (found is : List Import) : (newcomers found is).Sublist is := by
  induction is generalizing found with
  | nil => exact .slnil
  | cons i is ih =>
    rw [newcomers]
    split
    · exact (ih found).cons i
    · exact (ih _).cons_cons i

/-- What is added is the first to name its module, and nothing found has named it. -/
theorem mem_newcomers_iff :
    i ∈ newcomers found is ↔ i.target ∉ found.map Import.target ∧
      ∃ earlier later, is = earlier ++ i :: later ∧ i.target ∉ earlier.map Import.target := by
  induction is generalizing found with
  | nil => simp [newcomers]
  | cons j is ih =>
    rw [newcomers]
    split
    · next hj =>
      rw [ih]
      refine and_congr_right fun hi => ?_
      have hne : j.target ≠ i.target := fun heq => hi (heq ▸ hj)
      constructor
      · rintro ⟨earlier, later, rfl, hearlier⟩
        exact ⟨j :: earlier, later, rfl, by simp [hne.symm, hearlier]⟩
      · rintro ⟨earlier, later, his, hearlier⟩
        cases earlier with
        | nil =>
          obtain ⟨rfl, -⟩ := List.cons.inj his
          exact absurd rfl hne
        | cons e earlier =>
          obtain ⟨-, his⟩ := List.cons.inj his
          exact ⟨earlier, later, his, fun hmem => hearlier (List.mem_cons_of_mem _ hmem)⟩
    · next hj =>
      rw [List.mem_cons, ih, List.map_append, List.mem_append, not_or]
      constructor
      · rintro (rfl | ⟨⟨hi, hne⟩, earlier, later, rfl, hearlier⟩)
        · exact ⟨hj, [], is, rfl, List.not_mem_nil⟩
        · refine ⟨hi, j :: earlier, later, rfl, ?_⟩
          rw [List.map_cons, List.mem_cons, not_or]
          exact ⟨fun heq => hne (by simp [heq]), hearlier⟩
      · rintro ⟨hi, earlier, later, his, hearlier⟩
        cases earlier with
        | nil => exact .inl (List.cons.inj his).1.symm
        | cons e earlier =>
          obtain ⟨rfl, hrest⟩ := List.cons.inj his
          rw [List.map_cons, List.mem_cons, not_or] at hearlier
          exact .inr ⟨⟨hi, by simpa using hearlier.1⟩, earlier, later, hrest, hearlier.2⟩

theorem nodup_newcomers (found is : List Import) :
    ((newcomers found is).map Import.target).Nodup := by
  induction is generalizing found with
  | nil => exact .nil
  | cons i is ih =>
    rw [newcomers]
    split
    · exact ih found
    · refine List.nodup_cons.mpr ⟨fun hmem => ?_, ih _⟩
      obtain ⟨j, hj, heq⟩ := List.mem_map.mp hmem
      exact (mem_newcomers_iff.mp hj).1 (by simp [heq])

/-- Every import that could be added is listed by its target. -/
theorem target_mem_append_newcomers (h : i ∈ is) :
    i.target ∈ (found ++ newcomers found is).map Import.target := by
  induction is generalizing found with
  | nil => cases h
  | cons j is ih =>
    rw [newcomers]
    split
    · next hj =>
      rcases List.mem_cons.mp h with rfl | h
      · rw [List.map_append]
        exact List.mem_append_left _ hj
      · exact ih h
    · rw [← List.singleton_append, ← List.append_assoc]
      rcases List.mem_cons.mp h with rfl | h
      · simp
      · exact ih h

end Newcomers

/-! ## Imports of the tokens -/

theorem mem_tokenImports {ts : List Token} {i : Import} :
    i ∈ tokenImports ts ↔
      ∃ before t rest, ts = before ++ t :: rest ∧ importAt t rest = some i := by
  induction ts with
  | nil => simp [tokenImports]
  | cons u ts ih =>
    rw [tokenImports, List.mem_append, Option.mem_toList, ih]
    constructor
    · rintro (hi | ⟨before, t, rest, rfl, hi⟩)
      · exact ⟨[], u, ts, rfl, hi⟩
      · exact ⟨u :: before, t, rest, rfl, hi⟩
    · rintro ⟨before, t, rest, hts, hi⟩
      cases before with
      | nil =>
        obtain ⟨rfl, rfl⟩ := List.cons.inj hts
        exact .inl hi
      | cons b before =>
        obtain ⟨rfl, rfl⟩ := List.cons.inj hts
        exact .inr ⟨before, t, rest, rfl, hi⟩

theorem position_of_importAt {t : Token} {rest : List Token} {i : Import}
    (h : importAt t rest = some i) : i.position = t.position := by
  unfold importAt at h
  split at h
  · obtain ⟨_, -, rfl⟩ := Option.map_eq_some_iff.mp h
    rfl
  split at h
  · obtain ⟨_, -, rfl⟩ := Option.map_eq_some_iff.mp h
    rfl
  · cases h

theorem positions_sublist (ts : List Token) :
    ((tokenImports ts).map Import.position).Sublist (ts.map Token.position) := by
  induction ts with
  | nil => exact .slnil
  | cons t ts ih =>
    rw [tokenImports]
    cases hi : importAt t ts with
    | none => exact ih.cons t.position
    | some i =>
      rw [Option.toList_some, List.singleton_append, List.map_cons, position_of_importAt hi]
      exact ih.cons_cons t.position

/-- The imports of the tokens stand in the order of the source. -/
theorem pairwise_tokenImports (content : String) :
    (tokenImports (tokenize content)).Pairwise fun i j => i.position.before j.position = true := by
  obtain ⟨_, _, hlaid⟩ := tokenize_laid content
  have hpositions : ((tokenize content).map Token.position).Pairwise fun p q =>
      p.before q = true := List.pairwise_map.mpr hlaid.pairwise_before
  exact List.pairwise_map.mp (hpositions.sublist (positions_sublist _))

/-! ## Both passes -/

section Calls

variable {content : String} {found : List Import} {calls : List (Occurrence String)}

theorem target_mem_iff {m : Occurrence String} :
    (callImport content m).target ∈ found.map Import.target ↔
      ∃ i ∈ found, i.clause = .requireCall ∧ i.source = m.value := by
  simp only [List.mem_map, Import.target, callImport, Prod.mk.injEq]

theorem sources_nodup (content : String) (found : List Import)
    (calls : List (Occurrence String)) :
    ((newcomers found (calls.map (callImport content))).map Import.source).Nodup := by
  have hclause : ∀ i ∈ newcomers found (calls.map (callImport content)),
      i.target = (.requireCall, i.source) := by
    intro i hi
    obtain ⟨m, -, rfl⟩ := List.mem_map.mp ((newcomers_sublist _ _).subset hi)
    rfl
  have htargets := nodup_newcomers found (calls.map (callImport content))
  rw [List.map_congr_left hclause] at htargets
  rw [List.Nodup, List.pairwise_map] at htargets ⊢
  exact htargets.imp fun hne heq => hne (congrArg _ heq)

/-- A call is added if it is the first with its module, and nothing found requires this module. -/
theorem mem_newcomers_calls {i : Import} :
    i ∈ newcomers found (calls.map (callImport content)) ↔
      ∃ earlier m later, calls = earlier ++ m :: later ∧ i = callImport content m ∧
        (∀ e ∈ earlier, e.value ≠ m.value) ∧
        ∀ j ∈ found, j.clause = .requireCall → j.source ≠ m.value := by
  have hearlier (earlier : List (Occurrence String)) (m : Occurrence String) :
      (callImport content m).target ∉ (earlier.map (callImport content)).map Import.target ↔
        ∀ e ∈ earlier, e.value ≠ m.value := by
    simp [Import.target, callImport]
  have hfound (m : Occurrence String) :
      (callImport content m).target ∉ found.map Import.target ↔
        ∀ j ∈ found, j.clause = .requireCall → j.source ≠ m.value := by
    rw [target_mem_iff]
    simp
  rw [mem_newcomers_iff]
  constructor
  · rintro ⟨hnew, earlier, later, hcalls, hfirst⟩
    obtain ⟨earlier, rest, rfl, rfl, hrest⟩ := List.map_eq_append_iff.mp hcalls
    obtain ⟨m, later, rfl, rfl, rfl⟩ := List.map_eq_cons_iff.mp hrest
    exact ⟨earlier, m, later, rfl, rfl, (hearlier earlier m).mp hfirst, (hfound m).mp hnew⟩
  · rintro ⟨earlier, m, later, rfl, rfl, hfirst, hnew⟩
    refine ⟨(hfound m).mpr hnew, earlier.map (callImport content),
      later.map (callImport content), ?_, (hearlier earlier m).mpr hfirst⟩
    rw [List.map_append, List.map_cons]

end Calls

/-- The imports of a source are those of its tokens and what the calls in its text add. -/
theorem exists_calls_imports (content : String) :
    ∃ calls, IsSweep (IsCallAt content.toList) calls ∧
      imports (tokenize content) content = tokenImports (tokenize content) ++
        newcomers (tokenImports (tokenize content)) (calls.map (callImport content)) := by
  obtain ⟨calls, hcalls, hsweep⟩ := textImports_sweep content
  exact ⟨calls, hsweep, by rw [imports, hcalls, foldl_eq_newcomers]⟩

/-- The imports of a source are those of its tokens, in the order of the source, and then those of
calls in its text: for every module that a call found in the text requires, and no import of the
tokens does, the first of its calls. -/
theorem imports_passes (content : String) :
    ∃ calls added,
      IsSweep (IsCallAt content.toList) calls ∧
      imports (tokenize content) content = tokenImports (tokenize content) ++ added ∧
      ((tokenImports (tokenize content)).Pairwise fun i j =>
        i.position.before j.position = true) ∧
      added.Sublist (calls.map (callImport content)) ∧ (added.map Import.source).Nodup ∧
      (∀ i, i ∈ added ↔
        ∃ earlier m later, calls = earlier ++ m :: later ∧ i = callImport content m ∧
          (∀ e ∈ earlier, e.value ≠ m.value) ∧
          ∀ j ∈ tokenImports (tokenize content), j.clause = .requireCall → j.source ≠ m.value) ∧
      ∀ m ∈ calls, ∃ i ∈ imports (tokenize content) content,
        i.clause = .requireCall ∧ i.source = m.value := by
  obtain ⟨calls, hsweep, himports⟩ := exists_calls_imports content
  refine ⟨calls, _, hsweep, himports, pairwise_tokenImports content, newcomers_sublist _ _,
    sources_nodup _ _ _, fun i => mem_newcomers_calls, fun m hm => ?_⟩
  rw [himports, ← @target_mem_iff content]
  exact target_mem_append_newcomers (List.mem_map_of_mem hm)

end Script

end SymbolAtlas
