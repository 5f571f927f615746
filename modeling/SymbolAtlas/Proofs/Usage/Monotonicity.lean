import Mathlib.Data.List.Basic
import SymbolAtlas.Usage

/-! # Reports of unused names and the references they rest on

A report of unused names asks of each name only whether it is referenced. So with more names
referenced it loses entries and gains none, and where, how often and in what order names are
referenced makes no difference. Whether exported names are reported is a choice beside that: they
come on top of what is reported without them.
-/

namespace SymbolAtlas.Outline

def References (o : Outline) (name : String) : Prop := ∃ r ∈ o.references, r.name = name

instance (o : Outline) : DecidablePred o.References := fun name =>
  inferInstanceAs (Decidable (∃ r ∈ o.references, r.name = name))

variable {o o' : Outline}

theorem uses_eq (o : Outline) (name : String) : o.uses name = decide (o.References name) := by
  rw [Bool.eq_iff_iff, decide_eq_true_eq, uses, List.any_eq_true]
  simp only [beq_iff_eq, References]

/-- An import is unused when it lists names, each of them is visible, and none is referenced. -/
theorem isUnused_iff {i : Import} : o.isUnused i = true ↔
    i.names ≠ [] ∧ ∀ b ∈ i.names, ∃ name, b.localName? i.clause = some name ∧
      ¬ o.References name := by
  simp [isUnused, uses_eq, Option.any_eq_true]

theorem isUnused_mono (href : ∀ name, o.References name → o'.References name) {i : Import}
    (h : o'.isUnused i = true) : o.isUnused i = true := by
  rw [isUnused_iff] at h ⊢
  refine ⟨h.1, fun b hb => ?_⟩
  obtain ⟨name, hname, hunused⟩ := h.2 b hb
  exact ⟨name, hname, fun hused => hunused (href name hused)⟩

/-- The declarations of names that are not referenced. -/
def unreferenced (o : Outline) : List Declaration :=
  o.declarations.filter fun d => ¬ o.References d.name

def unreferencedExports (o : Outline) : List String :=
  (o.unreferenced.filter (·.isExported)).map (·.name)

theorem unreferenced_sublist (hdeclarations : o'.declarations = o.declarations)
    (href : ∀ name, o.References name → o'.References name) :
    o'.unreferenced.Sublist o.unreferenced := by
  rw [unreferenced, hdeclarations]
  refine List.monotone_filter_right _ fun d hd => ?_
  rw [decide_eq_true_eq] at hd ⊢
  exact fun hused => hd (href d.name hused)

theorem unusedDeclarations_eq (o : Outline) (config : Config) :
    o.unusedDeclarations config =
      (o.unreferenced.filter fun d => config.includeExported || !d.isExported).map (·.name) := by
  simp only [unusedDeclarations, unreferenced, uses_eq, List.filter_filter, Bool.and_comm,
    decide_not]

/-- Without the exported names, a report is what the full one has beside them. -/
theorem unusedDeclarations_perm (o : Outline) (config : Config) :
    (o.unusedDeclarations { config with includeExported := true }).Perm
      (o.unusedDeclarations { config with includeExported := false } ++
        o.unreferencedExports) := by
  simp only [unusedDeclarations_eq, Bool.true_or, Bool.false_or, List.filter_true,
    unreferencedExports, ← List.map_append]
  refine List.Perm.map _ (List.perm_append_comm.trans ?_).symm
  exact List.filter_append_perm (·.isExported) o.unreferenced

theorem unusedDeclarations_sublist_of_includeExported (o : Outline) (config : Config) :
    (o.unusedDeclarations { config with includeExported := false }).Sublist
      (o.unusedDeclarations { config with includeExported := true }) := by
  simp only [unusedDeclarations_eq, Bool.true_or, List.filter_true]
  exact List.filter_sublist.map _

/-! ## Two outlines -/

/-- The outlines differ in their references at most. -/
def SameButReferences (o o' : Outline) : Prop := { o with references := o'.references } = o'

namespace SameButReferences

variable (h : SameButReferences o o')

include h

theorem imports_eq : o'.imports = o.imports := (congrArg imports h).symm

theorem declarations_eq : o'.declarations = o.declarations := (congrArg declarations h).symm

theorem symm : SameButReferences o' o := by
  unfold SameButReferences at h ⊢
  rw [← h]

/-- An outline with more names referenced has fewer imports and declarations to report. -/
theorem unused_sublist (href : ∀ name, o.References name → o'.References name) :
    o'.unusedImports.Sublist o.unusedImports ∧
      ∀ config, (o'.unusedDeclarations config).Sublist (o.unusedDeclarations config) := by
  refine ⟨?_, fun config => ?_⟩
  · rw [unusedImports, h.imports_eq]
    exact List.monotone_filter_right _ fun i => isUnused_mono href
  · rw [unusedDeclarations_eq, unusedDeclarations_eq]
    exact ((unreferenced_sublist h.declarations_eq href).filter _).map _

end SameButReferences

/-- Of outlines that differ in their references only, the one with more names referenced has
reports that are sublists of the other's; with the same names referenced they have the same
reports. The full report on declarations is the one without exported names and the unreferenced
ones among these. -/
theorem unused_antitone (o : Outline) :
    (∀ o', SameButReferences o o' → (∀ name, o.References name → o'.References name) →
      o'.unusedImports.Sublist o.unusedImports ∧
        ∀ config, (o'.unusedDeclarations config).Sublist (o.unusedDeclarations config)) ∧
    (∀ o', SameButReferences o o' → (∀ name, o.References name ↔ o'.References name) →
      o'.unusedImports = o.unusedImports ∧
        ∀ config, o'.unusedDeclarations config = o.unusedDeclarations config) ∧
    ∀ config : Config,
      (o.unusedDeclarations { config with includeExported := false }).Sublist
          (o.unusedDeclarations { config with includeExported := true }) ∧
        (o.unusedDeclarations { config with includeExported := true }).Perm
          (o.unusedDeclarations { config with includeExported := false } ++
            o.unreferencedExports) := by
  refine ⟨fun o' hsame href => hsame.unused_sublist href, fun o' hsame href => ?_, fun config =>
    ⟨o.unusedDeclarations_sublist_of_includeExported config, o.unusedDeclarations_perm config⟩⟩
  -- Each report is a sublist of the other.
  obtain ⟨himports, hdeclarations⟩ := hsame.unused_sublist fun name => (href name).mp
  obtain ⟨himports', hdeclarations'⟩ := hsame.symm.unused_sublist fun name => (href name).mpr
  exact ⟨himports.antisymm himports',
    fun config => (hdeclarations config).antisymm (hdeclarations' config)⟩

/-- An outline with a dotted import, one of everything, one of two names and two declarations, of
which the file uses a name that it declares. -/
def usingOne : Outline where
  language := some .python
  imports := [⟨.plain [⟨"os.path", none⟩], "os.path", ⟨1, 1⟩⟩,
    ⟨.fromModule [⟨"*", none⟩], "re", ⟨2, 1⟩⟩,
    ⟨.fromModule [⟨"a", none⟩, ⟨"b", some "c"⟩], "m", ⟨3, 1⟩⟩]
  declarations := [⟨.value, "x", ⟨4, 1⟩, "variable", true⟩,
    ⟨.value, "_y", ⟨5, 1⟩, "variable", false⟩]
  references := [⟨"_y", ⟨6, 1⟩⟩]
  isValid := true
  problems := []
  content := ""

/-- The same outline with a second name used, before and after the first one. -/
def usingTwo : Outline :=
  { usingOne with references := [⟨"os", ⟨6, 1⟩⟩, ⟨"_y", ⟨6, 8⟩⟩, ⟨"os", ⟨7, 1⟩⟩] }

/-- With the second name used, the import that binds it is reported no longer. -/
theorem unused_antitone_usingTwo :
    SameButReferences usingOne usingTwo ∧
      (∀ name, usingOne.References name → usingTwo.References name) ∧
      usingOne.unusedImports.map (·.source) = ["os.path", "m"] ∧
      usingTwo.unusedImports.map (·.source) = ["m"] ∧
      usingTwo.unusedImports.Sublist usingOne.unusedImports ∧
      usingTwo.unusedDeclarations Config.default = ["x"] ∧
      (usingTwo.unusedDeclarations Config.default).Sublist
        (usingOne.unusedDeclarations Config.default) := by
  have href (name : String) (h : usingOne.References name) : usingTwo.References name := by
    obtain ⟨r, hr, rfl⟩ := h
    exact ⟨_, List.mem_cons_of_mem _ List.mem_cons_self, by rw [List.mem_singleton.mp hr]⟩
  have hless := (unused_antitone usingOne).1 usingTwo rfl href
  exact ⟨rfl, href, by decide, by decide, hless.1, by decide, hless.2 Config.default⟩

end SymbolAtlas.Outline
