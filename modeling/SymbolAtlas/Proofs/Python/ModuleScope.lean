import SymbolAtlas.Proofs.Python.BoundNames
import SymbolAtlas.Proofs.Python.DeclarationOrder

/-! # What stands at module scope is declared

A statement stands at module scope if all that it stands in are blocks that run there. The
declarations of a tree are those of the functions, classes and assignments at module scope, and
there are no others. Of the targets of an assignment all names are declared but those under a star.
-/

namespace SymbolAtlas.Python

variable {s t n : Tree}

/-! ## Scope -/

/-- The statement stands at the scope of the node: it is the node, or stands in it with nothing in
between but blocks and the statements and clauses of which they are the blocks. -/
inductive AtScope (s : Tree) : Tree → Prop
  | self : AtScope s s
  | inside {t u : Tree} (hkind : t.kind ∈ [.block, .ifStatement, .elifClause, .elseClause,
      .tryStatement, .exceptClause, .exceptGroupClause, .finallyClause, .withStatement,
      .forStatement, .whileStatement])
      (hu : u ∈ t.children) (h : AtScope s u) : AtScope s t

def AtModuleScope (tree s : Tree) : Prop := ∃ t ∈ tree.children, AtScope s t

theorem keepsScope_iff {kind : Kind} : kind.keepsScope = true ↔ kind ∈ [.block, .ifStatement,
    .elifClause, .elseClause, .tryStatement, .exceptClause, .exceptGroupClause, .finallyClause,
    .withStatement, .forStatement, .whileStatement] := by
  rw [Kind.keepsScope, List.contains_iff_mem]
  exact List.Perm.mem_iff (by decide)

theorem atScope_iff : AtScope s t ↔
    s = t ∨ t.kind.keepsScope = true ∧ ∃ u ∈ t.children, AtScope s u := by
  rw [keepsScope_iff]
  constructor
  · rintro (_ | ⟨hkind, hu, h⟩)
    · exact .inl rfl
    · exact .inr ⟨hkind, _, hu, h⟩
  · rintro (rfl | ⟨hkind, u, hu, h⟩)
    · exact .self
    · exact .inside hkind hu h

mutual

theorem mem_statements (hnamed : s.isNamed = true) (hkind : s.kind.keepsScope = false) :
    ∀ t : Tree, s ∈ t.statements ↔ AtScope s t
  | ⟨kind, field, start, stop, children⟩ => by
    rw [atScope_iff, Tree.statements]
    split
    · rename_i hkeeps
      rw [mem_statementsIn hnamed hkind children, or_iff_right, and_iff_right hkeeps]
      rintro rfl
      rw [hkeeps] at hkind
      cases hkind
    · rename_i hkeeps
      rw [List.mem_singleton, or_iff_left fun h => hkeeps h.1]

theorem mem_statementsIn (hnamed : s.isNamed = true) (hkind : s.kind.keepsScope = false) :
    ∀ ts : List Tree, s ∈ Tree.statementsIn ts ↔ ∃ t ∈ ts, AtScope s t
  | [] => by simp [Tree.statementsIn]
  | t :: ts => by
    rw [Tree.statementsIn, List.exists_mem_cons_iff]
    split
    · rw [List.mem_append, mem_statements hnamed hkind t, mem_statementsIn hnamed hkind ts]
    · rename_i hmark
      rw [mem_statementsIn hnamed hkind ts, or_iff_right]
      intro h
      rcases atScope_iff.mp h with rfl | ⟨hkeeps, -⟩
      · exact hmark hnamed
      · have hnot : t.kind = .mark := by simpa [Tree.isNamed] using hmark
        rw [hnot] at hkeeps
        cases hkeeps

end

/-! ## Declared names -/

/-- The name is a target, or stands in one through tuples and lists, but under no star. -/
inductive IsUnstarred (n : Tree) : Tree → Prop
  | name (hkind : n.kind = .identifier) : IsUnstarred n n
  | part {t u : Tree} (hkind : t.kind ∈ [.patternList, .tuplePattern, .listPattern])
      (hu : u ∈ t.children) (h : IsUnstarred n u) : IsUnstarred n t

/-- The assignment has the target: on its left, or in an assignment on its right. -/
inductive HasTarget (t : Tree) : Tree → Prop
  | left {a : Tree} (hkind : a.kind = .assignment) (h : a.child? .left = some t) : HasTarget t a
  | right {a b : Tree} (hkind : a.kind = .assignment) (hright : a.child? .right = some b)
      (h : HasTarget t b) : HasTarget t a

def Defines (n s : Tree) : Prop :=
  (s.kind = .functionDefinition ∨ s.kind = .classDefinition) ∧ s.child? .name = some n

/-- The statement declares the name: it defines it, with or without decorators, or assigns it. -/
inductive Declares (n : Tree) : Tree → Prop
  | defined {s : Tree} (h : Defines n s) : Declares n s
  | decorated {s u : Tree} (hkind : s.kind = .decoratedDefinition)
      (hu : s.child? .definition = some u) (h : Defines n u) : Declares n s
  | assigned {s a t : Tree} (hkind : s.kind = .expressionStatement) (ha : a ∈ s.children)
      (ht : HasTarget t a) (h : IsUnstarred n t) : Declares n s

theorem isUnstarred_iff : IsUnstarred n t ↔ n = t ∧ t.kind = .identifier ∨
    t.kind ∈ [.patternList, .tuplePattern, .listPattern] ∧ ∃ u ∈ t.children, IsUnstarred n u := by
  constructor
  · rintro (hkind | ⟨hkind, hu, h⟩)
    · exact .inl ⟨rfl, hkind⟩
    · exact .inr ⟨hkind, _, hu, h⟩
  · rintro (⟨rfl, hkind⟩ | ⟨hkind, u, hu, h⟩)
    · exact .name hkind
    · exact .part hkind hu h

theorem hasTarget_iff {a : Tree} : HasTarget t a ↔ a.kind = .assignment ∧
    (a.child? .left = some t ∨ ∃ b, a.child? .right = some b ∧ HasTarget t b) := by
  constructor
  · rintro (⟨hkind, h⟩ | ⟨hkind, hright, h⟩)
    · exact ⟨hkind, .inl h⟩
    · exact ⟨hkind, .inr ⟨_, hright, h⟩⟩
  · rintro ⟨hkind, h | ⟨b, hright, h⟩⟩
    · exact .left hkind h
    · exact .right hkind hright h

mutual

theorem mem_targetNames : ∀ t : Tree, n ∈ t.targetNames ↔ IsUnstarred n t
  | ⟨kind, field, start, stop, children⟩ => by
    rw [isUnstarred_iff]
    unfold Tree.targetNames
    split
    · simp
    iterate 3
      · rw [mem_targetNamesIn children]
        simp
    · simp_all

theorem mem_targetNamesIn : ∀ ts : List Tree, n ∈ Tree.targetNamesIn ts ↔
    ∃ t ∈ ts, IsUnstarred n t
  | [] => by simp [Tree.targetNamesIn]
  | t :: ts => by
    rw [Tree.targetNamesIn, List.mem_append, List.exists_mem_cons_iff, mem_targetNames t,
      mem_targetNamesIn ts]

end

/-- The assignment, or one on its right, has a target with the name that the reference gives. -/
def Assigns (a : Tree) (r : Reference) : Prop :=
  ∃ t, HasTarget t a ∧ ∃ n, IsUnstarred n t ∧ n.reference = r

theorem assigns_iff {a : Tree} {r : Reference} : Assigns a r ↔ a.kind = .assignment ∧
    ((∃ t, a.child? .left = some t ∧ ∃ n, IsUnstarred n t ∧ n.reference = r) ∨
      ∃ b, a.child? .right = some b ∧ Assigns b r) := by
  simp only [Assigns, hasTarget_iff (a := a)]
  grind

theorem mem_assignedHere {a : Tree} {r : Reference} : r ∈ a.assignedHere.map Declaration.place ↔
    ∃ t, a.child? .left = some t ∧ ∃ n, IsUnstarred n t ∧ n.reference = r := by
  obtain ⟨descriptor, hhere⟩ := Tree.exists_assignedHere_eq a
  rw [hhere, List.map_map, List.mem_map, Tree.leftNames, ← Tree.child?]
  cases a.child? .left with
  | none => simp
  | some left =>
    simp only [Option.map_some, Option.getD_some, mem_targetNames, Option.some.injEq,
      exists_eq_left']
    rfl

mutual

theorem mem_assigned {r : Reference} : ∀ a : Tree, r ∈ a.assigned.map Declaration.place ↔
    Assigns a r
  | ⟨kind, field, start, stop, children⟩ => by
    rw [assigns_iff, Tree.assigned]
    split
    · rename_i hkind
      rw [List.map_append, List.mem_append, mem_assignedHere, mem_assignedOnRight children,
        and_iff_right hkind]
      rfl
    · rename_i hkind
      simp [hkind]

theorem mem_assignedOnRight {r : Reference} : ∀ ts : List Tree,
    r ∈ (Tree.assignedOnRight ts).map Declaration.place ↔
      ∃ b, ts.find? (·.field == some .right) = some b ∧ Assigns b r
  | [] => by simp [Tree.assignedOnRight]
  | t :: ts => by
    rw [Tree.assignedOnRight]
    split
    · rename_i hright
      rw [List.find?_cons_of_pos (by simpa using hright), mem_assigned t]
      simp
    · rename_i hright
      rw [List.find?_cons_of_neg (by simpa using hright), mem_assignedOnRight ts]

end

theorem mem_defined {r : Reference} : r ∈ s.defined.map Declaration.place ↔
    ∃ n, Defines n s ∧ n.reference = r := by
  have hsingle {name : Tree} {form : Declaration.Form} {descriptor : String}
      (hkind : s.kind = .functionDefinition ∨ s.kind = .classDefinition)
      (hname : s.child? .name = some name) :
      r ∈ [name.declares form descriptor].map Declaration.place ↔
        ∃ n, Defines n s ∧ n.reference = r := by
    rw [List.map_singleton, List.mem_singleton]
    constructor
    · rintro rfl
      exact ⟨name, ⟨hkind, hname⟩, rfl⟩
    · rintro ⟨n, ⟨-, hn⟩, rfl⟩
      obtain rfl := Option.some.inj (hname.symm.trans hn)
      rfl
  unfold Tree.defined
  split
  · exact hsingle (.inl ‹_›) ‹_›
  · exact hsingle (.inr ‹_›) ‹_›
  · rename_i hfunction hclass
    simp only [List.map_nil, List.not_mem_nil, false_iff]
    rintro ⟨n, ⟨hkind | hkind, hname⟩, -⟩
    · exact hfunction n hkind hname
    · exact hclass n hkind hname

theorem declares_iff : Declares n s ↔ Defines n s ∨
    (s.kind = .decoratedDefinition ∧ ∃ u, s.child? .definition = some u ∧ Defines n u) ∨
    (s.kind = .expressionStatement ∧ ∃ a ∈ s.children, ∃ t, HasTarget t a ∧ IsUnstarred n t) := by
  constructor
  · rintro (h | ⟨hkind, hu, h⟩ | ⟨hkind, ha, ht, h⟩)
    · exact .inl h
    · exact .inr (.inl ⟨hkind, _, hu, h⟩)
    · exact .inr (.inr ⟨hkind, _, ha, _, ht, h⟩)
  · rintro (h | ⟨hkind, u, hu, h⟩ | ⟨hkind, a, ha, t, ht, h⟩)
    · exact .defined h
    · exact .decorated hkind hu h
    · exact .assigned hkind ha ht h

theorem mem_declared {r : Reference} : r ∈ s.declared.map Declaration.place ↔
    ∃ n, Declares n s ∧ n.reference = r := by
  simp only [declares_iff]
  unfold Tree.declared
  split
  · cases hchild : s.child? .definition with
    | none => grind [Defines]
    | some u =>
      rw [Option.map_some, Option.getD_some, mem_defined]
      grind [Defines]
  · rw [List.map_flatMap, List.mem_flatMap]
    simp only [mem_assigned, Assigns]
    grind [Defines]
  · rw [mem_defined]
    grind

/-- A statement that declares something is more than a mark, and no block. -/
theorem Declares.isNamed (h : Declares n s) :
    s.isNamed = true ∧ s.kind.keepsScope = false := by
  have hkind : s.kind = .functionDefinition ∨ s.kind = .classDefinition ∨
      s.kind = .decoratedDefinition ∨ s.kind = .expressionStatement := by
    rcases declares_iff.mp h with ⟨hkind, -⟩ | ⟨hkind, -⟩ | ⟨hkind, -⟩
    · exact hkind.imp_right .inl
    · exact .inr (.inr (.inl hkind))
    · exact .inr (.inr (.inr hkind))
  rw [Tree.isNamed]
  rcases hkind with hkind | hkind | hkind | hkind <;> rw [hkind] <;> decide

/-! ## Declarations of a tree -/

/-- What is found in a tree is declared by the statements at module scope. -/
theorem mem_found {tree : Tree} {r : Reference} :
    r ∈ (tree.moduleStatements.flatMap Tree.declared).map Declaration.place ↔
      ∃ s, AtModuleScope tree s ∧ ∃ n, Declares n s ∧ n.reference = r := by
  simp only [List.map_flatMap, List.mem_flatMap, mem_declared]
  constructor
  · rintro ⟨s, hs, n, hn, hr⟩
    exact ⟨s, (mem_statementsIn hn.isNamed.1 hn.isNamed.2 _).mp hs, n, hn, hr⟩
  · rintro ⟨s, hs, n, hn, hr⟩
    exact ⟨s, (mem_statementsIn hn.isNamed.1 hn.isNamed.2 _).mpr hs, n, hn, hr⟩

/-- In a pattern a name is under a star or may be declared. -/
theorem IsBoundIn.isUnstarred_or (h : IsBoundIn n t) (hn : n.kind = .identifier)
    (ht : t.IsPattern) :
    IsUnstarred n t ∨ ∃ star ∈ t.nodes, star.kind = .listSplatPattern ∧ n ∈ star.names := by
  induction h with
  | name => exact .inl (.name hn)
  | @part t u hkind hu h ih =>
    obtain ⟨hlist, hparts⟩ := ht.parts hkind
    have hnu := h.mem_names hn
    by_cases hstar : t.kind = .listSplatPattern
    · exact .inr ⟨t, mem_nodes_self t, hstar, (Tree.names_sublist_of_part hu).subset hnu⟩
    · refine (ih (hparts u hu hnu)).imp (.part ?_ hu) fun ⟨star, hmem, h⟩ =>
        ⟨star, mem_nodes_of_part hu hmem, h⟩
      grind

/-- A tree declares a name if and only if a statement at module scope does, and each declaration is
that of such a statement. What an assignment declares are the names in its targets, but for those
under a star. -/
theorem declarations_atModuleScope (tree : Tree) :
    (∀ name, tree.declarations.declares name = true ↔
      ∃ s, AtModuleScope tree s ∧ ∃ n, Declares n s ∧ n.text = name) ∧
    (∀ d ∈ tree.declarations,
      ∃ s, AtModuleScope tree s ∧ ∃ n, Declares n s ∧ n.reference = d.place) ∧
    ∀ content, syntaxTree content = .ok tree →
      ∀ a ∈ tree.nodes, a.kind = .assignment → ∀ t, a.child? .left = some t →
        ∀ n, IsBoundIn n t → n.kind = .identifier →
          IsUnstarred n t ∨ ∃ star ∈ t.nodes, star.kind = .listSplatPattern ∧ n ∈ star.names := by
  refine ⟨fun name => ?_, fun d hd => ?_, fun content htree a ha hkind t ht n hbound hn => ?_⟩
  · have hnames : tree.declarations.declares name = true ↔
        name ∈ (tree.moduleStatements.flatMap Tree.declared).map Declaration.name := by
      rw [← List.mem_eraseDups, ← Declarations.map_name_ofFound, ← Tree.declarations,
        Declarations.declares, List.any_eq_true, List.mem_map]
      simp only [beq_iff_eq]
    have hplaces : (tree.moduleStatements.flatMap Tree.declared).map Declaration.name =
        ((tree.moduleStatements.flatMap Tree.declared).map Declaration.place).map
          Reference.name := by
      rw [List.map_map]
      rfl
    rw [hnames, hplaces, List.mem_map]
    simp only [mem_found]
    constructor
    · rintro ⟨_, ⟨s, hs, n, hn, rfl⟩, rfl⟩
      exact ⟨s, hs, n, hn, rfl⟩
    · rintro ⟨s, hs, n, hn, rfl⟩
      exact ⟨_, ⟨s, hs, n, hn, rfl⟩, rfl⟩
  · exact mem_found.mp (List.mem_map_of_mem (Declarations.mem_ofFound hd))
  · have hleads := ((syntaxTree_reads htree).1 a ha).hasParts.target (.inl hkind)
    have hpattern := hleads.isPattern_left ht fun h => h.not_mem_names (hbound.mem_names hn)
    exact hbound.isUnstarred_or hn hpattern

/-- A function in a block of an `if` is declared, and so are the targets of a chain of assignments
in it; the function in the function is not. -/
theorem declarations_atModuleScope_inBlock :
    ∃ tree, syntaxTree "if x:\n    a = b, [c] = y\n    def f():\n        def g(): pass" = .ok tree ∧
      tree.declarations.map Declaration.name = ["a", "b", "c", "f"] ∧
      (∃ s, AtModuleScope tree s ∧ ∃ n, Declares n s ∧ n.text = "c") ∧
      ¬ ∃ s, AtModuleScope tree s ∧ ∃ n, Declares n s ∧ n.text = "g" := by
  obtain ⟨tree, htree, hnames, hdeclares, hnot⟩ := @exists_syntaxTree
    "if x:\n    a = b, [c] = y\n    def f():\n        def g(): pass"
    (fun tree => tree.declarations.map Declaration.name = ["a", "b", "c", "f"] ∧
      tree.declarations.declares "c" = true ∧ tree.declarations.declares "g" = false) _
    (by decide +kernel)
  refine ⟨tree, htree, hnames, ((declarations_atModuleScope tree).1 "c").mp hdeclares, fun h => ?_⟩
  rw [((declarations_atModuleScope tree).1 "g").mpr h] at hnot
  cases hnot

/-- A name under a star in a target of an assignment at module scope is not declared. -/
theorem exists_starred_undeclared :
    ∃ tree, syntaxTree "a, *b = x" = .ok tree ∧
      ∃ s, AtModuleScope tree s ∧ s.kind = .expressionStatement ∧ ∃ a ∈ s.children,
        ∃ t, HasTarget t a ∧ ∃ n, IsBoundIn n t ∧ n.kind = .identifier ∧ n.text = "b" ∧
          tree.declarations.declares "b" = false := by
  obtain ⟨tree, htree, hundeclared, s, hs, hstatement, a, ha, hassignment, hleft⟩ :=
    @exists_syntaxTree "a, *b = x"
      (fun tree => tree.declarations.declares "b" = false ∧
        ∃ s ∈ tree.children, s.kind = .expressionStatement ∧ ∃ a ∈ s.children,
          a.kind = .assignment ∧ (a.child? .left).any (fun t =>
            ∃ star ∈ t.children, ∃ n ∈ star.children,
              [t.kind, star.kind, n.kind] = [.patternList, .listSplatPattern, .identifier] ∧
              n.text = "b") = true) _
      (by decide +kernel)
  obtain ⟨t, ht, hparts⟩ := (Option.any_eq_true ..).mp hleft
  obtain ⟨star, hstar, n, hn, hkinds, htext⟩ := of_decide_eq_true hparts
  simp only [List.cons.injEq, and_true] at hkinds
  obtain ⟨hlist, hsplat, hname⟩ := hkinds
  have hbound : IsBoundIn n t := .part (by simp [hlist]) hstar (.part (by simp [hsplat]) hn .name)
  exact ⟨tree, htree, s, ⟨s, hs, .self⟩, hstatement, a, ha, t, .left hassignment ht, n, hbound,
    hname, htext, hundeclared⟩

end SymbolAtlas.Python
