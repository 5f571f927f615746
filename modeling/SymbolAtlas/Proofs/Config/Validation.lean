import SymbolAtlas.Proofs.Config.Place

/-! # Validation

A configuration that is accepted is valid, has the entries that are given and the default ones for
the others, and gives itself back. What is not accepted has places at which something is refused,
and one issue for each of them. Unknown fields make no difference to either.
-/

namespace SymbolAtlas.Config

open Place (recordCause?)

/-! ## Accepted configurations -/

theorem isExtension_of_extensionIssue? {s : String} (h : extensionIssue? (.text s) = none) :
    IsExtension s := by
  rw [extensionIssue?] at h
  split at h
  · rename_i hs
    exact isExtension_iff.mp hs
  · cases h

theorem IsExtension.extensionIssue? {s : String} (h : IsExtension s) :
    Config.extensionIssue? (.text s) = none := if_pos (isExtension_iff.mpr h)

theorem isIndexFile_of_indexFileIssue? {s : String} (h : indexFileIssue? (.text s) = none) :
    IsIndexFile s := by
  refine ⟨?_, slash_not_mem_of_indexFileIssue? h⟩
  rintro rfl
  cases h

theorem IsIndexFile.indexFileIssue? {s : String} (h : IsIndexFile s) :
    Config.indexFileIssue? (.text s) = none := by
  have hslash : s.toList.contains '/' = false := by simpa using h.2
  rw [Config.indexFileIssue?, if_neg (by simpa using h.1), hslash]
  rfl

theorem IsChecked.isValid {config : Config} (h : IsChecked config) : config.IsValid :=
  ⟨fun e he => isExtension_of_extensionIssue? (h.extensions e he),
    fun file hfile => isIndexFile_of_indexFileIssue? (h.indexFiles file hfile)⟩

theorem textItems_map_text (texts : List String) : textItems (.list (texts.map .text)) = texts := by
  simp [textItems, List.filterMap_map]

/-! What a configuration has where, as an untyped value. -/

section toValue

variable (config : Config)

theorem value?_extensions_toValue : Place.extensions.value? (some config.toValue) =
    some (.list (config.extensions.map .text)) := rfl

theorem value?_indexFiles_toValue : Place.indexFiles.value? (some config.toValue) =
    some (.list (config.indexFiles.map .text)) := rfl

theorem value?_includeExported_toValue : Place.includeExported.value? (some config.toValue) =
    some (.bool config.includeExported) := rfl

theorem fill_toValue : fill (some config.toValue) = config := by
  rw [fill, ← Place.value?, ← Place.value?, ← Place.value?, value?_extensions_toValue,
    value?_indexFiles_toValue, value?_includeExported_toValue]
  simp only [Option.map_some, Option.getD_some, textItems_map_text]

end toValue

/-- In what a valid configuration is as an untyped value nothing is refused. -/
theorem IsValid.not_offends {config : Config} (h : config.IsValid) (p : Place)
    (cause : IssueCause) : ¬ Offends (some config.toValue) p cause := by
  rintro ⟨v, hv, hrefuses⟩
  have htext {texts : List String} {n : Nat}
      (hv : (some (Value.list (texts.map .text))).bind (Value.item? n) = some v) :
      ∃ s ∈ texts, v = .text s := by
    simp only [Option.bind_some, Value.item?, List.getElem?_map, Option.map_eq_some_iff] at hv
    obtain ⟨s, hs, rfl⟩ := hv
    exact ⟨s, List.mem_of_getElem? hs, rfl⟩
  rw [Place.refuses_iff] at hrefuses
  cases p with
  | root | resolution | extensions | indexFiles | unused | includeExported =>
    cases hv
    cases hrefuses
  | extension n =>
    obtain ⟨s, hs, rfl⟩ := htext hv
    rw [Place.cause?, (h.extensions s hs).extensionIssue?] at hrefuses
    cases hrefuses
  | indexFile n =>
    obtain ⟨s, hs, rfl⟩ := htext hv
    rw [Place.cause?, (h.indexFiles s hs).indexFileIssue?] at hrefuses
    cases hrefuses

/-- A valid configuration gives itself back. -/
theorem IsValid.ofValue_toValue {config : Config} (h : config.IsValid) :
    ofValue (some config.toValue) = .ok config := by
  rw [ofValue, issues_eq_nil_iff.mpr h.not_offends, fill_toValue]

/-- A list in which nothing is refused has the texts that are taken from it. -/
theorem eq_list_of_not_offends {overrides : Option Value} {v : Value} {p : Place}
    {item : Nat → Place} (hp : p = .extensions ∨ p = .indexFiles) (hv : p.value? overrides = some v)
    (hitem : ∀ n, (item n).value? overrides = (p.value? overrides).bind (Value.item? n))
    (hform : (∀ n, item n = .extension n) ∨ ∀ n, item n = .indexFile n)
    (h : ∀ p cause, ¬ Offends overrides p cause) : v = .list ((textItems v).map .text) := by
  have hlist : ∃ items, v = .list items := by
    by_contra hno
    exact h p _ ⟨v, hv, .noList hp fun items hitems => hno ⟨items, hitems⟩⟩
  obtain ⟨items, rfl⟩ := hlist
  have htext : ∀ w ∈ items, ∃ s, w = .text s := by
    intro w hw
    obtain ⟨n, hn⟩ := List.mem_iff_getElem?.mp hw
    by_contra hno
    refine h (item n) _ ⟨w, ?_, .noText ?_ fun s hs => hno ⟨s, hs⟩⟩
    · rw [hitem, hv]
      exact hn
    · exact hform.imp (fun hform => ⟨n, hform n⟩) fun hform => ⟨n, hform n⟩
  congr 1
  clear hv h hitem
  induction items with
  | nil => rfl
  | cons w items ih =>
    obtain ⟨⟨s, rfl⟩, hitems⟩ := List.forall_mem_cons.mp htext
    simpa [textItems] using ih hitems

/-- A list of texts, or the default one where there is none, is what it is taken from. -/
theorem texts_agree {entry : Option Value} {texts : List String}
    (h : ∀ v, entry = some v → v = .list ((textItems v).map .text)) :
    some (Value.list (((entry.map textItems).getD texts).map .text)) =
      entry.or (some (.list (texts.map .text))) := by
  cases entry with
  | none => rfl
  | some v => exact congrArg some (h v rfl).symm

/-- A truth value, or the default one where there is none, is what it is taken from. -/
theorem flag_agrees (entry : Option Value) (flag : Bool) :
    (∀ v, entry = some v → ∃ b, v = .bool b) →
      some (Value.bool (match entry with | some (.bool b) => b | _ => flag)) =
        entry.or (some (.bool flag)) := by
  intro h
  cases entry with
  | none => rfl
  | some v =>
    obtain ⟨b, rfl⟩ := h v rfl
    rfl

theorem agreesWith_fill {overrides : Option Value} (h : ∀ p cause, ¬ Offends overrides p cause) :
    (fill overrides).AgreesWith overrides := by
  intro p hp
  simp only [List.mem_cons, List.not_mem_nil, or_false] at hp
  rcases hp with rfl | rfl | rfl
  · exact texts_agree fun v hv =>
      eq_list_of_not_offends (.inl rfl) hv (fun _ => rfl) (.inl fun _ => rfl) h
  · exact texts_agree fun v hv =>
      eq_list_of_not_offends (.inr rfl) hv (fun _ => rfl) (.inr fun _ => rfl) h
  · refine flag_agrees _ _ fun v hv => ?_
    by_contra hno
    exact h .includeExported _ ⟨v, hv, .noFlag fun b hb => hno ⟨b, hb⟩⟩

/-! ## Unknown fields -/

theorem field?_known {name : String} (h : ["resolution", "unused"].contains name = true)
    (v : Value) : (known v).field? name = (v.field? name).map (Value.keeping
      (if name = "resolution" then ["extensions", "indexFiles"] else ["includeExported"])) := by
  rw [← Value.field?_keeping h v]
  cases v with
  | record fields =>
    rw [known, Value.keeping, Value.field?, Value.field?, List.find?_map, Option.map_map,
      Option.map_map]
    simp only [Function.comp_def]
    cases hfind : (fields.filter fun f => ["resolution", "unused"].contains f.1).find?
        (·.1 == name) with
    | none => rfl
    | some f =>
      have hname : f.1 = name := by simpa using List.find?_some hfind
      rw [Option.map_some, Option.map_some, hname]
  | null | bool | number | text | list => rfl

/-- The entries of a section are known. -/
theorem entryAt_known {group name : String} {names : List String}
    (hgroup : ["resolution", "unused"].contains group = true)
    (hnames : (if group = "resolution" then ["extensions", "indexFiles"]
      else ["includeExported"]) = names) (hname : names.contains name = true)
    (overrides : Option Value) :
    entryAt (overrides.map known) group name = entryAt overrides group name := by
  cases overrides with
  | none => rfl
  | some v =>
    rw [entryAt, entryAt, Option.map_some, Option.bind_some, Option.bind_some,
      field?_known hgroup, hnames]
    cases v.field? group with
    | none => rfl
    | some w => exact Value.field?_keeping hname w

theorem recordCause?_known (v : Value) : recordCause? (known v) = recordCause? v := by
  cases v <;> rfl

theorem recordCause?_keeping (names : List String) (v : Value) :
    recordCause? (v.keeping names) = recordCause? v := by
  cases v <;> rfl

theorem extensions_known (overrides : Option Value) :
    entryAt (overrides.map known) "resolution" "extensions" =
      entryAt overrides "resolution" "extensions" := entryAt_known rfl rfl rfl overrides

theorem indexFiles_known (overrides : Option Value) :
    entryAt (overrides.map known) "resolution" "indexFiles" =
      entryAt overrides "resolution" "indexFiles" := entryAt_known rfl rfl rfl overrides

theorem includeExported_known (overrides : Option Value) :
    entryAt (overrides.map known) "unused" "includeExported" =
      entryAt overrides "unused" "includeExported" := entryAt_known rfl rfl rfl overrides

theorem issueAt?_known (overrides : Option Value) (p : Place) :
    issueAt? (overrides.map known) p = issueAt? overrides p := by
  have hsection {name : String} (h : ["resolution", "unused"].contains name = true) :
      ((overrides.map known).bind (Value.field? name)).bind recordCause? =
        (overrides.bind (Value.field? name)).bind recordCause? := by
    cases overrides with
    | none => rfl
    | some v =>
      rw [Option.map_some, Option.bind_some, Option.bind_some, field?_known h, Option.bind_map]
      exact congrArg _ (funext fun w => recordCause?_keeping _ w)
  cases p with
  | root =>
    cases overrides with
    | none => rfl
    | some v => exact congrArg (Option.map _) (recordCause?_known v)
  | resolution | unused => exact congrArg (Option.map _) (hsection rfl)
  | extensions | extension | indexFiles | indexFile | includeExported =>
    simp only [issueAt?, Place.value?, extensions_known, indexFiles_known, includeExported_known]

/-- Unknown fields make no difference. -/
theorem ofValue_known (overrides : Option Value) :
    ofValue (overrides.map known) = ofValue overrides := by
  have hplaces : places (overrides.map known) = places overrides := by
    simp only [places, Place.value?, extensions_known, indexFiles_known]
  have hissues : issues (overrides.map known) = issues overrides := by
    rw [issues_eq, issues_eq, hplaces, funext (issueAt?_known overrides)]
  have hfill : fill (overrides.map known) = fill overrides := by
    simp only [fill, extensions_known, indexFiles_known, includeExported_known]
  rw [ofValue, ofValue, hissues, hfill]

/-! ## Validation -/

/-- An untyped value is a configuration with the entries that it gives and the default ones for the
others, whatever its unknown fields, and gives itself back as one; or it has places at which
something is refused, and the report on it has one issue for each of them, in their order. -/
theorem ofValue_validates (overrides : Option Value) :
    ((∃ config, ofValue overrides = .ok config ∧ (∀ p cause, ¬ Offends overrides p cause) ∧
        config.IsValid ∧ config.AgreesWith overrides ∧
        ofValue (some config.toValue) = .ok config) ∨
      ∃ found offending, ofValue overrides = .error (.invalidConfig found) ∧ found ≠ [] ∧
        offending.Pairwise Place.Precedes ∧
        (∀ p, p ∈ offending ↔ ∃ cause, Offends overrides p cause) ∧
        List.Forall₂ (fun p i => i.path = p.path ∧ Offends overrides p i.cause) offending found ∧
        (Fault.invalidConfig found).report.kind = .invalidConfig ∧
        (Fault.invalidConfig found).report.context =
          some (.record [("issues", .list (found.map fun i => .text i.text))])) ∧
    ofValue (overrides.map known) = ofValue overrides := by
  refine ⟨?_, ofValue_known overrides⟩
  cases hissues : issues overrides with
  | nil =>
    have hnone := issues_eq_nil_iff.mp hissues
    have hok : ofValue overrides = .ok (fill overrides) := by rw [ofValue, hissues]
    have hvalid := (isChecked_of_ofValue hok).isValid
    exact .inl ⟨_, hok, hnone, hvalid, agreesWith_fill hnone, hvalid.ofValue_toValue⟩
  | cons i is =>
    refine .inr ⟨i :: is, offendingPlaces overrides, by rw [ofValue, hissues],
      List.cons_ne_nil i is, (pairwise_places overrides).filter _, fun p => mem_offendingPlaces, ?_,
      rfl, ?_⟩
    · rw [← hissues]
      exact (forall₂_issues overrides).imp fun _ _ => exists_of_issueAt?
    · simp [Fault.report, Report.invalidConfig]

example :
    (issues (some (.record [("unused", .null), ("resolution", .record
      [("indexFiles", .list [.text "", .text "index.ts", .text "lib/a"]),
        ("extensions", .list [.text "ts", .null])])]))).map Issue.text =
      ["resolution.extensions.0: extensions must start with a dot",
        "resolution.extensions.1: Expected string, received null",
        "resolution.indexFiles.0: String must contain at least 1 character(s)",
        "resolution.indexFiles.2: index files must be bare file names",
        "unused: Expected object, received null"] := by decide +kernel

end SymbolAtlas.Config
