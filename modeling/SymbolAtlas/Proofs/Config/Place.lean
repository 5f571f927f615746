import Mathlib.Data.List.Forall2
import Mathlib.Data.List.Basic
import SymbolAtlas.Proofs.Config

/-! # Places of a configuration

An untyped configuration has places that are known: the whole, its sections, their entries and the
items of the lists. `Refuses` says what may not stand where. A configuration is accepted exactly
when nothing of the kind stands anywhere, and otherwise each place at which something does has one
issue, in the order of the places.
-/

namespace SymbolAtlas

namespace Value

variable {names : List String}

def item? (n : Nat) : Value → Option Value
  | list items => items[n]?
  | _ => none

/-- The value with no other fields than those of some names; what is no record stays as it is. -/
def keeping (names : List String) : Value → Value
  | record fields => record (fields.filter fun f => names.contains f.1)
  | v => v

theorem field?_keeping {name : String} (h : names.contains name = true) (v : Value) :
    (v.keeping names).field? name = v.field? name := by
  cases v with
  | record fields =>
    rw [keeping, field?, field?, List.find?_filter]
    congr 2
    funext f
    by_cases hname : f.1 = name
    · simp [hname, List.contains_iff_mem.mp h]
    · simp [hname]
  | null | bool | number | text | list => rfl

end Value

namespace Config

/-! ## What is refused, and where -/

/-- A file extension: a dot and one or more letters, digits, underscores, dots and signs. -/
def IsExtension (s : String) : Prop :=
  ∃ rest, s.toList = '.' :: rest ∧ rest ≠ [] ∧
    ∀ c ∈ rest, Identifier.isAsciiWord c = true ∨ c ∈ ['.', '+', '-']

/-- A file name without a directory. -/
def IsIndexFile (s : String) : Prop := s ≠ "" ∧ '/' ∉ s.toList

structure IsValid (config : Config) : Prop where
  extensions : ∀ e ∈ config.extensions, IsExtension e
  indexFiles : ∀ file ∈ config.indexFiles, IsIndexFile file

/-- A place of a configuration that is known. -/
inductive Place where
  | root
  | resolution
  | extensions
  | extension (index : Nat)
  | indexFiles
  | indexFile (index : Nat)
  | unused
  | includeExported
  deriving DecidableEq, Repr

namespace Place

def path : Place → List String
  | root => []
  | resolution => ["resolution"]
  | extensions => ["resolution", "extensions"]
  | extension n => ["resolution", "extensions", toString n]
  | indexFiles => ["resolution", "indexFiles"]
  | indexFile n => ["resolution", "indexFiles", toString n]
  | unused => ["unused"]
  | includeExported => ["unused", "includeExported"]

/-- Where a place stands among all, and which item of a list it is. -/
def rank : Place → Nat × Nat
  | root => (0, 0)
  | resolution => (1, 0)
  | extensions => (2, 0)
  | extension n => (3, n)
  | indexFiles => (4, 0)
  | indexFile n => (5, n)
  | unused => (6, 0)
  | includeExported => (7, 0)

def Precedes (p q : Place) : Prop :=
  p.rank.1 < q.rank.1 ∨ p.rank.1 = q.rank.1 ∧ p.rank.2 < q.rank.2

def value? (overrides : Option Value) : Place → Option Value
  | root => overrides
  | resolution => overrides.bind (Value.field? "resolution")
  | extensions => entryAt overrides "resolution" "extensions"
  | extension n => (entryAt overrides "resolution" "extensions").bind (Value.item? n)
  | indexFiles => entryAt overrides "resolution" "indexFiles"
  | indexFile n => (entryAt overrides "resolution" "indexFiles").bind (Value.item? n)
  | unused => overrides.bind (Value.field? "unused")
  | includeExported => entryAt overrides "unused" "includeExported"

inductive Refuses : Place → Value → IssueCause → Prop
  | noRecord {p : Place} {v : Value} (hp : p = root ∨ p = resolution ∨ p = unused)
      (hv : ∀ fields, v ≠ .record fields) : Refuses p v (.wrongType "object" v.typeName)
  | noList {p : Place} {v : Value} (hp : p = extensions ∨ p = indexFiles)
      (hv : ∀ items, v ≠ .list items) : Refuses p v (.wrongType "array" v.typeName)
  | noText {p : Place} {v : Value} (hp : (∃ n, p = extension n) ∨ ∃ n, p = indexFile n)
      (hv : ∀ s, v ≠ .text s) : Refuses p v (.wrongType "string" v.typeName)
  | noFlag {v : Value} (hv : ∀ b, v ≠ .bool b) :
      Refuses includeExported v (.wrongType "boolean" v.typeName)
  | noExtension {n : Nat} {s : String} (h : ¬ IsExtension s) :
      Refuses (extension n) (.text s) .noLeadingDot
  | noName {n : Nat} : Refuses (indexFile n) (.text "") .emptyText
  | noBareName {n : Nat} {s : String} (h : '/' ∈ s.toList) :
      Refuses (indexFile n) (.text s) .notBareName

end Place

def Offends (overrides : Option Value) (p : Place) (cause : IssueCause) : Prop :=
  ∃ v, p.value? overrides = some v ∧ p.Refuses v cause

/-- The configuration has the entries that are given, and the default ones for the others. -/
def AgreesWith (config : Config) (overrides : Option Value) : Prop :=
  ∀ p ∈ [Place.extensions, .indexFiles, .includeExported],
    p.value? (some config.toValue) =
      (p.value? overrides).or (p.value? (some default.toValue))

/-- A value with no other fields than the known ones, in the whole and in its sections. -/
def known : Value → Value
  | .record fields =>
    .record ((fields.filter fun f => ["resolution", "unused"].contains f.1).map fun f =>
      (f.1, f.2.keeping
        (if f.1 = "resolution" then ["extensions", "indexFiles"] else ["includeExported"])))
  | v => v

/-! ## The same, computed -/

theorem isExtension_iff {s : String} : isExtension s = true ↔ IsExtension s := by
  unfold isExtension IsExtension
  split
  · rename_i rest hs
    simp only [hs, Bool.and_eq_true, Bool.not_eq_true', List.isEmpty_eq_false_iff,
      List.all_eq_true, isExtensionPart, Bool.or_eq_true, beq_iff_eq, List.cons.injEq, true_and,
      exists_eq_left', List.mem_cons, List.not_mem_nil, or_false, or_assoc]
  · rename_i hnot
    simp only [Bool.false_eq_true, false_iff, not_exists, not_and]
    exact fun rest hs => absurd hs (hnot rest)

namespace Place

def recordCause? : Value → Option IssueCause
  | .record _ => none
  | v => some (.wrongType "object" v.typeName)

def listCause? : Value → Option IssueCause
  | .list _ => none
  | v => some (.wrongType "array" v.typeName)

def flagCause? : Value → Option IssueCause
  | .bool _ => none
  | v => some (.wrongType "boolean" v.typeName)

def cause? : Place → Value → Option IssueCause
  | root | resolution | unused => recordCause?
  | extensions | indexFiles => listCause?
  | extension _ => extensionIssue?
  | indexFile _ => indexFileIssue?
  | includeExported => flagCause?

theorem recordCause?_eq_some_iff {v : Value} {cause : IssueCause} : recordCause? v = some cause ↔
    (∀ fields, v ≠ .record fields) ∧ .wrongType "object" v.typeName = cause := by
  cases v <;> simp [recordCause?]

theorem listCause?_eq_some_iff {v : Value} {cause : IssueCause} : listCause? v = some cause ↔
    (∀ items, v ≠ .list items) ∧ .wrongType "array" v.typeName = cause := by
  cases v <;> simp [listCause?]

theorem flagCause?_eq_some_iff {v : Value} {cause : IssueCause} : flagCause? v = some cause ↔
    (∀ b, v ≠ .bool b) ∧ .wrongType "boolean" v.typeName = cause := by
  cases v <;> simp [flagCause?]

theorem extensionIssue?_eq_some_iff {v : Value} {cause : IssueCause} :
    extensionIssue? v = some cause ↔
      (∀ s, v ≠ .text s) ∧ .wrongType "string" v.typeName = cause ∨
        ∃ s, v = .text s ∧ ¬ IsExtension s ∧ .noLeadingDot = cause := by
  cases v <;> simp [extensionIssue?, ← isExtension_iff]

theorem indexFileIssue?_eq_some_iff {v : Value} {cause : IssueCause} :
    indexFileIssue? v = some cause ↔
      (∀ s, v ≠ .text s) ∧ .wrongType "string" v.typeName = cause ∨
        v = .text "" ∧ .emptyText = cause ∨
          ∃ s, v = .text s ∧ '/' ∈ s.toList ∧ .notBareName = cause := by
  cases v with
  | text s =>
    by_cases hs : s = ""
    · subst hs
      simp [indexFileIssue?]
    · by_cases hslash : '/' ∈ s.toList <;> simp [indexFileIssue?, hs, hslash]
  | null | bool | number | list | record => simp [indexFileIssue?]

theorem refuses_iff {p : Place} {v : Value} {cause : IssueCause} :
    p.Refuses v cause ↔ p.cause? v = some cause := by
  constructor
  · rintro (⟨rfl | rfl | rfl, hv⟩ | ⟨rfl | rfl, hv⟩ | ⟨⟨n, rfl⟩ | ⟨n, rfl⟩, hv⟩ | hv | h | - | h)
    iterate 3 exact recordCause?_eq_some_iff.mpr ⟨hv, rfl⟩
    iterate 2 exact listCause?_eq_some_iff.mpr ⟨hv, rfl⟩
    · exact extensionIssue?_eq_some_iff.mpr (.inl ⟨hv, rfl⟩)
    · exact indexFileIssue?_eq_some_iff.mpr (.inl ⟨hv, rfl⟩)
    · exact flagCause?_eq_some_iff.mpr ⟨hv, rfl⟩
    · exact extensionIssue?_eq_some_iff.mpr (.inr ⟨_, rfl, h, rfl⟩)
    · exact indexFileIssue?_eq_some_iff.mpr (.inr (.inl ⟨rfl, rfl⟩))
    · exact indexFileIssue?_eq_some_iff.mpr (.inr (.inr ⟨_, rfl, h, rfl⟩))
  · intro h
    cases p with
    | root | resolution | unused =>
      obtain ⟨hv, rfl⟩ := recordCause?_eq_some_iff.mp h
      exact .noRecord (by simp) hv
    | extensions | indexFiles =>
      obtain ⟨hv, rfl⟩ := listCause?_eq_some_iff.mp h
      exact .noList (by simp) hv
    | extension n =>
      obtain ⟨hv, rfl⟩ | ⟨s, rfl, hs, rfl⟩ := extensionIssue?_eq_some_iff.mp h
      · exact .noText (by simp) hv
      · exact .noExtension hs
    | indexFile n =>
      obtain ⟨hv, rfl⟩ | ⟨rfl, rfl⟩ | ⟨s, rfl, hs, rfl⟩ := indexFileIssue?_eq_some_iff.mp h
      · exact .noText (by simp) hv
      · exact .noName
      · exact .noBareName hs
    | includeExported =>
      obtain ⟨hv, rfl⟩ := flagCause?_eq_some_iff.mp h
      exact .noFlag hv

end Place

open Place (listCause? recordCause? flagCause?)

def issueAt? (overrides : Option Value) (p : Place) : Option Issue :=
  ((p.value? overrides).bind p.cause?).map fun cause => ⟨p.path, cause⟩

def itemCount : Option Value → Nat
  | some (.list items) => items.length
  | _ => 0

def places (overrides : Option Value) : List Place :=
  .root :: .resolution :: .extensions ::
    ((List.range (itemCount (Place.extensions.value? overrides))).map .extension ++ .indexFiles ::
      ((List.range (itemCount (Place.indexFiles.value? overrides))).map .indexFile ++
        [.unused, .includeExported]))

theorem itemIssues_eq (path : List String) (check : Value → Option IssueCause) (n : Nat)
    (items : List Value) :
    itemIssues path check n items = (List.range items.length).filterMap fun k =>
      (items[k]?.bind check).map fun cause => ⟨path ++ [toString (n + k)], cause⟩ := by
  induction items generalizing n with
  | nil => rfl
  | cons v items ih =>
    rw [itemIssues, ih, List.length_cons, List.range_succ_eq_map, List.filterMap_cons,
      List.filterMap_map]
    simp only [Function.comp_def, List.getElem?_cons_zero, Option.bind_some, Nat.add_zero,
      List.getElem?_cons_succ, Nat.succ_eq_add_one, Nat.add_assoc, Nat.add_comm 1]
    cases check v <;> rfl

theorem listIssues_eq (path : List String) (check : Value → Option IssueCause)
    (entry : Option Value) :
    listIssues path check entry =
      ((entry.bind listCause?).map fun cause => ⟨path, cause⟩).toList ++
        (List.range (itemCount entry)).filterMap fun n =>
          ((entry.bind (Value.item? n)).bind check).map fun cause =>
            ⟨path ++ [toString n], cause⟩ := by
  cases entry with
  | none => rfl
  | some v =>
    cases v with
    | list items => simp [listIssues, listCause?, itemCount, Value.item?, itemIssues_eq]
    | null | bool | number | text | record => rfl

/-- A section is wrong in itself, or it has what is wrong in its entries. -/
theorem sectionIssues_eq (path : List String) (check : Option Value → List Issue)
    (hcheck : ∀ entry, (∀ name, entry.bind (Value.field? name) = none) → check entry = [])
    (entry : Option Value) :
    sectionIssues path (fun v => check (some v)) entry =
      ((entry.bind recordCause?).map fun cause => ⟨path, cause⟩).toList ++ check entry := by
  cases entry with
  | none => exact (hcheck none fun _ => rfl).symm
  | some v =>
    cases v with
    | record fields => rfl
    | null | bool | number | text | list =>
      rw [hcheck _ fun _ => rfl]
      rfl

theorem unusedIssues_eq (v : Value) : unusedIssues v =
    (((v.field? "includeExported").bind flagCause?).map fun cause =>
      ⟨["unused", "includeExported"], cause⟩).toList := by
  unfold unusedIssues
  cases v.field? "includeExported" with
  | none => rfl
  | some w => cases w <;> rfl

/-- The issues are those at the places, in their order. -/
theorem issues_eq (overrides : Option Value) :
    issues overrides = (places overrides).filterMap (issueAt? overrides) := by
  have hresolution (entry : Option Value) :
      sectionIssues ["resolution"] resolutionIssues entry = _ :=
    sectionIssues_eq _ (fun entry =>
      listIssues ["resolution", "extensions"] extensionIssue?
          (entry.bind (Value.field? "extensions")) ++
        listIssues ["resolution", "indexFiles"] indexFileIssue?
          (entry.bind (Value.field? "indexFiles"))) (fun _ h => by rw [h, h]; rfl) entry
  have hunused (entry : Option Value) : sectionIssues ["unused"] unusedIssues entry =
      ((entry.bind recordCause?).map fun cause => ⟨["unused"], cause⟩).toList ++
        (((entry.bind (Value.field? "includeExported")).bind flagCause?).map fun cause =>
          ⟨["unused", "includeExported"], cause⟩).toList := by
    rw [funext unusedIssues_eq]
    exact sectionIssues_eq _ (fun entry =>
      (((entry.bind (Value.field? "includeExported")).bind flagCause?).map fun cause =>
        (⟨["unused", "includeExported"], cause⟩ : Issue)).toList) (fun _ h => by rw [h]; rfl) entry
  have hroot : issues overrides = _ :=
    sectionIssues_eq _ (fun entry =>
      sectionIssues ["resolution"] resolutionIssues (entry.bind (Value.field? "resolution")) ++
        sectionIssues ["unused"] unusedIssues (entry.bind (Value.field? "unused")))
      (fun _ h => by rw [h, h]; rfl) overrides
  have hcons (p : Place) (ps : List Place) : (p :: ps).filterMap (issueAt? overrides) =
      (issueAt? overrides p).toList ++ ps.filterMap (issueAt? overrides) := by
    cases h : issueAt? overrides p <;> simp [h]
  rw [hroot, hresolution, hunused, places]
  simp only [hcons, listIssues_eq, List.filterMap_append, List.filterMap_nil, List.filterMap_map,
    List.append_nil, List.append_assoc]
  rfl

/-! ## Offending places -/

theorem mem_places {overrides : Option Value} {p : Place} {v : Value}
    (h : p.value? overrides = some v) : p ∈ places overrides := by
  have hitem {entry : Option Value} {n : Nat} (h : entry.bind (Value.item? n) = some v) :
      n < itemCount entry := by
    obtain ⟨w, rfl, hw⟩ := Option.bind_eq_some_iff.mp h
    cases w with
    | list items => exact (List.getElem?_eq_some_iff.mp hw).1
    | null | bool | number | text | record => cases hw
  cases p with
  | extension n => simpa [places, Place.value?] using hitem h
  | indexFile n => simpa [places, Place.value?] using hitem h
  | root | resolution | extensions | indexFiles | unused | includeExported => simp [places]

theorem pairwise_places (overrides : Option Value) :
    (places overrides).Pairwise Place.Precedes := by
  have hitems (form : Nat → Place) (k : Nat) (hform : ∀ n, (form n).rank = (k, n)) (n : Nat) :
      ((List.range n).map form).Pairwise Place.Precedes := by
    rw [List.pairwise_map]
    refine List.pairwise_lt_range.imp fun hlt => .inr ?_
    simpa [hform] using hlt
  simp [places, List.pairwise_append, hitems .extension 3 fun _ => rfl,
    hitems .indexFile 5 fun _ => rfl, Place.Precedes, Place.rank, or_imp, forall_and]

theorem offends_iff {overrides : Option Value} {p : Place} {cause : IssueCause} :
    Offends overrides p cause ↔ issueAt? overrides p = some ⟨p.path, cause⟩ := by
  simp [Offends, issueAt?, Place.refuses_iff, Option.bind_eq_some_iff]

theorem exists_of_issueAt? {overrides : Option Value} {p : Place} {i : Issue}
    (h : issueAt? overrides p = some i) : i.path = p.path ∧ Offends overrides p i.cause := by
  obtain ⟨cause, -, rfl⟩ := Option.map_eq_some_iff.mp h
  exact ⟨rfl, offends_iff.mpr h⟩

/-- The places at which a configuration has something that is refused, in order. -/
def offendingPlaces (overrides : Option Value) : List Place :=
  (places overrides).filter fun p => (issueAt? overrides p).isSome

theorem mem_offendingPlaces {overrides : Option Value} {p : Place} :
    p ∈ offendingPlaces overrides ↔ ∃ cause, Offends overrides p cause := by
  rw [offendingPlaces, List.mem_filter, Option.isSome_iff_exists]
  constructor
  · rintro ⟨-, i, hi⟩
    exact ⟨i.cause, (exists_of_issueAt? hi).2⟩
  · rintro ⟨cause, hoffends⟩
    have ⟨v, hv, _⟩ := hoffends
    exact ⟨mem_places hv, _, offends_iff.mp hoffends⟩

theorem forall₂_issues (overrides : Option Value) :
    List.Forall₂ (fun p i => issueAt? overrides p = some i) (offendingPlaces overrides)
      (issues overrides) := by
  rw [issues_eq, offendingPlaces]
  induction places overrides with
  | nil => exact .nil
  | cons p ps ih =>
    cases hp : issueAt? overrides p with
    | none =>
      rw [List.filter_cons_of_neg (by simp [hp]), List.filterMap_cons_none hp]
      exact ih
    | some i =>
      rw [List.filter_cons_of_pos (by simp [hp]), List.filterMap_cons_some hp]
      exact .cons hp ih

theorem issues_eq_nil_iff {overrides : Option Value} :
    issues overrides = [] ↔ ∀ p cause, ¬ Offends overrides p cause := by
  have hnil : issues overrides = [] ↔ offendingPlaces overrides = [] := by
    rw [← List.length_eq_zero_iff, ← List.length_eq_zero_iff, (forall₂_issues overrides).length_eq]
  rw [hnil, List.eq_nil_iff_forall_not_mem]
  simp only [mem_offendingPlaces, not_exists]

end Config

end SymbolAtlas
