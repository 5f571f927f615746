import SymbolAtlas.Config

/-! # Accepted configurations

A configuration is given only when no place of the overrides has an issue. So each text of an
accepted configuration has passed the check of its own list, the defaults included.
-/

namespace SymbolAtlas.Config

structure IsChecked (config : Config) : Prop where
  extensions : ∀ e ∈ config.extensions, extensionIssue? (.text e) = none
  indexFiles : ∀ file ∈ config.indexFiles, indexFileIssue? (.text file) = none

theorem isChecked_default : IsChecked default := ⟨by decide, by decide⟩

theorem itemIssues_eq_nil {path : List String} {check : Value → Option IssueCause} {n : Nat}
    {items : List Value} (h : itemIssues path check n items = []) :
    ∀ v ∈ items, check v = none := by
  induction items generalizing n with
  | nil => exact fun v hv => absurd hv List.not_mem_nil
  | cons v items ih =>
    rw [itemIssues, List.append_eq_nil_iff, Option.toList_eq_nil_iff, Option.map_eq_none_iff] at h
    exact List.forall_mem_cons.mpr ⟨h.1, ih h.2⟩

/-- The texts of a list without issues, or the defaults where there is no list, pass the check. -/
theorem check_texts_of_listIssues {path : List String} {check : Value → Option IssueCause}
    {entry : Option Value} {defaults : List String} (h : listIssues path check entry = [])
    (hdefaults : ∀ s ∈ defaults, check (.text s) = none) :
    ∀ s ∈ (entry.map textItems).getD defaults, check (.text s) = none := by
  match entry with
  | none => exact hdefaults
  | some (.list items) =>
    intro s hs
    obtain ⟨v, hv, hs⟩ := List.mem_filterMap.mp hs
    cases v <;> cases hs
    exact itemIssues_eq_nil h _ hv
  | some .null | some (.bool _) | some (.number _ _) | some (.text _) | some (.record _) =>
    exact absurd h (List.cons_ne_nil _ _)

/-- A section without issues is absent, and then so is each of its fields, or it is a record whose
fields have no issues. -/
theorem field_of_sectionIssues {path : List String} {check : Value → List Issue}
    {entry : Option Value} {name : String} {fieldIssues : Option Value → List Issue}
    (h : sectionIssues path check entry = [])
    (hcheck : ∀ v, check v = [] → fieldIssues (v.field? name) = [])
    (hnone : fieldIssues none = []) : fieldIssues (entry.bind (Value.field? name)) = [] := by
  match entry with
  | none => exact hnone
  | some (.record fields) => exact hcheck _ h
  | some .null | some (.bool _) | some (.number _ _) | some (.text _) | some (.list _) =>
    exact absurd h (List.cons_ne_nil _ _)

theorem resolutionIssues_of_issues {overrides : Option Value} (h : issues overrides = []) :
    sectionIssues ["resolution"] resolutionIssues
      (overrides.bind (Value.field? "resolution")) = [] :=
  field_of_sectionIssues h (fun _ hv => (List.append_eq_nil_iff.mp hv).1) rfl

theorem isChecked_fill {overrides : Option Value} (h : issues overrides = []) :
    IsChecked (fill overrides) := by
  have hresolution := resolutionIssues_of_issues h
  have hextensions : listIssues ["resolution", "extensions"] extensionIssue?
      (entryAt overrides "resolution" "extensions") = [] :=
    field_of_sectionIssues hresolution (fun _ hv => (List.append_eq_nil_iff.mp hv).1) rfl
  have hindexFiles : listIssues ["resolution", "indexFiles"] indexFileIssue?
      (entryAt overrides "resolution" "indexFiles") = [] :=
    field_of_sectionIssues hresolution (fun _ hv => (List.append_eq_nil_iff.mp hv).2) rfl
  exact ⟨check_texts_of_listIssues hextensions isChecked_default.extensions,
    check_texts_of_listIssues hindexFiles isChecked_default.indexFiles⟩

theorem isChecked_of_ofValue {overrides : Option Value} {config : Config}
    (h : ofValue overrides = .ok config) : IsChecked config := by
  rw [ofValue] at h
  split at h
  · next hissues =>
    cases h
    exact isChecked_fill hissues
  · cases h

theorem slash_not_mem_of_indexFileIssue? {file : String}
    (h : indexFileIssue? (.text file) = none) : '/' ∉ file.toList := by
  intro hslash
  rw [indexFileIssue?, List.contains_iff_mem.mpr hslash, if_pos rfl] at h
  split at h <;> cases h

end SymbolAtlas.Config
