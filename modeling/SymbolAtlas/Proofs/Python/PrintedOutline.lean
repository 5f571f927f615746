import SymbolAtlas.Proofs.Python.PrintedLines
import SymbolAtlas.Proofs.Python.PrintedTree
import SymbolAtlas.Python.Outline

/-! # The outline of printed imports

A text of printed import statements has a clean syntax tree, and it makes no difference whether its
outline is read off that tree or off its lines: both give the printed imports, and neither finds
declarations or references.
-/

namespace SymbolAtlas.Python

/-! ## References -/

theorem visit_import {t : Tree} (h : IsImport t) : t.visit .read = [] := by
  have hkind : t.kind ≠ .identifier := by rcases h with h | h <;> simp [h]
  have hvisits : t.visits .read = [] := by
    rcases h with h | h <;> simp [Tree.visits, Tree.visitsOfRead, h, Role.onlyBinds]
  rw [Tree.visit, if_neg hkind]
  simp [hvisits]

/-- A module of import statements reads no names. -/
theorem references_module {ts : List Tree} (h : ∀ t ∈ ts, IsImport t) :
    (Tree.node .module ts).references = [] := by
  rw [Tree.references, Tree.visit, if_neg (by simp [Tree.node]), List.flatMap_eq_nil_iff]
  rintro ⟨⟨role, u⟩, hu⟩ -
  obtain ⟨_, hu, heq⟩ := List.mem_map.mp hu
  cases heq
  exact visit_import (h u (List.mem_filter.mp hu).1)

/-! ## Declarations -/

theorem declared_import {t : Tree} (h : IsImport t) : t.declared = [] := by
  rcases h with h | h <;> simp [Tree.declared, Tree.defined, h]

theorem statements_import {t : Tree} (h : IsImport t) : t.statements = [t] := by
  obtain ⟨kind, field, start, stop, children⟩ := t
  rcases h with rfl | rfl <;> rfl

/-- A module of import statements declares nothing. -/
theorem declarations_module {ts : List Tree} (h : ∀ t ∈ ts, IsImport t) :
    (Tree.node .module ts).declarations = [] := by
  have hnone : (Tree.statementsIn ts).flatMap Tree.declared = [] := by
    induction ts with
    | nil => rfl
    | cons t ts ih =>
      obtain ⟨ht, hts⟩ := List.forall_mem_cons.mp h
      have hnamed : t.isNamed = true := by
        rcases ht with h | h <;> simp [Tree.isNamed, h]
      rw [Tree.statementsIn, if_pos hnamed, statements_import ht, List.flatMap_append, ih hts]
      simp [declared_import ht]
  rw [Tree.declarations]
  exact congrArg Declarations.ofFound hnone

/-! ## Outlines -/

/-- The syntax tree of printed imports. -/
theorem syntaxTree_importText (isEnded : Bool) (statements : List ImportStatement)
    (hlength : utf16Length (importText isEnded statements) < lengthLimit) :
    ∃ ts, syntaxTree (String.ofList (importText isEnded statements)) = .ok (.node .module ts) ∧
      (∀ t ∈ ts, IsImport t) ∧ ts.flatMap Tree.imports = importsFrom 1 statements := by
  obtain ⟨ts, hstatements, hkinds, himports⟩ := statements_importText isEnded statements
  refine ⟨ts, ?_, hkinds, himports⟩
  rw [syntaxTree]
  simp only [String.toList_ofList, hstatements]
  rw [if_neg (Nat.not_le.mpr hlength)]

/-- Printed imports shorter than the limit are outlined from a syntax tree, and the outline has the
imports that are found in their lines: those that are printed. Neither the tree nor the lines have
references or declarations. -/
theorem outline_importText (isEnded : Bool) (statements : List ImportStatement)
    (hlength : utf16Length (importText isEnded statements) < lengthLimit)
    (filename : Option String) :
    let content := String.ofList (importText isEnded statements)
    (∃ tree, syntaxTree content = .ok tree ∧
        outline content filename = (treeOutline content tree, [])) ∧
      (outline content filename).1.imports = Lines.imports content ∧
      Lines.imports content = importsFrom 1 statements ∧
      (outline content filename).1.references = [] ∧
      (outline content filename).1.declarations = [] ∧
      Lines.references content = [] ∧ Lines.declarations content = [] := by
  intro content
  obtain ⟨ts, htree, hkinds, himports⟩ := syntaxTree_importText isEnded statements hlength
  have hlines : Lines.imports content = importsFrom 1 statements :=
    imports_importText isEnded statements
  have houtline : outline content filename = (treeOutline content (.node .module ts), []) := by
    rw [outline, htree]
  have himportsTree : (Tree.node .module ts).imports = importsFrom 1 statements := by
    rw [← himports, Tree.imports_eq]
    rfl
  refine ⟨⟨_, htree, houtline⟩, ?_, hlines, ?_, ?_, references_importText isEnded statements,
    declarations_importText isEnded statements⟩
  · rw [houtline, hlines]
    exact himportsTree
  · rw [houtline]
    exact references_module hkinds
  · rw [houtline]
    exact declarations_module hkinds

/-- The statements `from ..b import c, d as e` and `import f.g`. -/
def twoImports : List ImportStatement :=
  let name := fun c (h : isPlainName [c] = true) => DottedName.mk ⟨[c], h⟩ []
  [.listed (.relative 1 (some ⟨name 'b' rfl, by decide⟩))
      ⟨⟨name 'c' rfl, none⟩, [⟨name 'd' rfl, some ⟨['e'], rfl⟩⟩]⟩,
    .plain ⟨⟨⟨⟨['f'], rfl⟩, [⟨['g'], rfl⟩]⟩, none⟩, []⟩]

theorem outline_twoImports :
    utf16Length (importText true twoImports) < lengthLimit ∧
      (outline (String.ofList (importText true twoImports)) none).1.imports =
        [⟨.fromModule [⟨"c", none⟩, ⟨"d", some "e"⟩], "..b", ⟨1, 1⟩⟩,
          ⟨.plain [⟨"f.g", none⟩], "f.g", ⟨2, 1⟩⟩] := by
  have h : utf16Length (importText true twoImports) < lengthLimit := by decide
  obtain ⟨_, htree, hlines, _⟩ := outline_importText true twoImports h none
  exact ⟨h, htree.trans hlines⟩

end SymbolAtlas.Python
