import SymbolAtlas.Proofs.MergedDeclarations
import SymbolAtlas.Proofs.Python.MatchedLines
import SymbolAtlas.Proofs.Python.ReferenceOrder
import SymbolAtlas.Python.Tree.Declarations

/-! # Declarations in source order

What a tree declares are some of its names, in the order of the tree: the target of an assignment
stands before the assignments on its right, and the statements at the scope of a node keep their
order. What the lines of a source declare comes in source order because it is sorted. In both cases
the same law says which declaration of a name counts.
-/

namespace SymbolAtlas

def Declaration.place (d : Declaration) : Reference := ⟨d.name, d.position⟩

namespace Python

/-! ## Declarations of a tree -/

namespace Tree

variable {source : List Char} {t u : Tree} {ts : List Tree}

theorem mem_of_child? {f : Field} (h : t.child? f = some u) :
    u ∈ t.children ∧ u.field = some f :=
  ⟨List.mem_of_find?_eq_some h, by simpa using List.find?_some h⟩

mutual

theorem targetNames_sublist : ∀ t : Tree, t.targetNames.Sublist t.names
  | ⟨kind, field, start, stop, children⟩ => by
    unfold targetNames
    split
    · rw [names_of_name rfl]
      exact List.Sublist.cons_cons _ (List.nil_sublist _)
    iterate 3
      · rw [names_of_kind (by simp)]
        exact targetNamesIn_sublist children
    · exact List.nil_sublist _

theorem targetNamesIn_sublist : ∀ ts : List Tree, (targetNamesIn ts).Sublist (namesOf ts)
  | [] => List.nil_sublist _
  | t :: ts => by
    rw [targetNamesIn, namesOf_cons]
    exact t.targetNames_sublist.append (targetNamesIn_sublist ts)

end

/-- The declarations give some of the names, in their order. -/
def Gives (found : List Declaration) (names : List Tree) : Prop :=
  (found.map Declaration.place).Sublist (names.map reference)

section Gives

variable {found found' : List Declaration} {names names' : List Tree}

theorem gives_nil : Gives [] names := List.nil_sublist _

theorem Gives.append (h : Gives found names) (h' : Gives found' names') :
    Gives (found ++ found') (names ++ names') := by
  rw [Gives, List.map_append, List.map_append]
  exact List.Sublist.append h h'

theorem Gives.of_append_left (h : Gives (found ++ found') names) : Gives found names := by
  rw [Gives, List.map_append] at h
  exact (List.sublist_append_left ..).trans h

theorem Gives.of_sublist (h : Gives found names) (hnames : names.Sublist names') :
    Gives found names' := List.Sublist.trans h (hnames.map reference)

/-- What each of some nodes declares, they declare in their order. -/
theorem gives_flatMap {f : Tree → List Declaration} (h : ∀ t ∈ ts, Gives (f t) t.names) :
    Gives (ts.flatMap f) (namesOf ts) := by
  induction ts with
  | nil => exact gives_nil
  | cons t ts ih =>
    obtain ⟨ht, hts⟩ := List.forall_mem_cons.mp h
    rw [List.flatMap_cons, namesOf_cons]
    exact ht.append (ih hts)

theorem gives_map_declares {form : Declaration.Form} {descriptor : String}
    (h : names.Sublist names') : Gives (names.map (·.declares form descriptor)) names' := by
  rw [Gives, List.map_map]
  exact h.map reference

end Gives

/-- The names in the target that an assignment with these parts has on its left. -/
def leftNames (ts : List Tree) : List Tree :=
  ((ts.find? (·.field == some .left)).map targetNames).getD []

theorem leftNames_cons_left (h : t.field = some .left) : leftNames (t :: ts) = t.targetNames := by
  rw [leftNames, List.find?_cons_of_pos (by simpa using h)]
  rfl

theorem leftNames_cons_of_ne (h : t.field ≠ some .left) :
    leftNames (t :: ts) = leftNames ts := by
  rw [leftNames, List.find?_cons_of_neg (by simpa using h)]
  rfl

theorem exists_assignedHere_eq (t : Tree) : ∃ descriptor,
    t.assignedHere = (leftNames t.children).map (·.declares .value descriptor) := by
  refine ⟨if (t.child? .type).isSome then "annotated variable" else "variable", ?_⟩
  rw [assignedHere, leftNames, ← child?]
  cases t.child? .left with
  | none => rfl
  | some left => rfl

mutual

/-- An assignment declares some of its names, in their order. -/
theorem gives_assigned : ∀ {t : Tree}, t.IsFaithful source → Gives t.assigned t.names
  | ⟨kind, field, start, stop, children⟩, h => by
    rw [assigned]
    split
    · rename_i hkind
      obtain ⟨descriptor, hhere⟩ :=
        exists_assignedHere_eq ⟨kind, field, start, stop, children⟩
      rw [hhere, names_of_kind (by simp [hkind])]
      exact gives_assignment h.children (h.hasParts.target (.inl hkind)) descriptor
    · exact gives_nil

theorem gives_assignedOnRight : ∀ {ts : List Tree}, AllFaithful source ts →
    Gives (assignedOnRight ts) (namesOf ts)
  | [], _ => gives_nil
  | t :: ts, h => by
    obtain ⟨ht, hts⟩ := allFaithful_cons.mp h
    rw [assignedOnRight, namesOf_cons]
    split
    · exact (gives_assigned ht).of_sublist (List.sublist_append_left ..)
    · exact (gives_assignedOnRight hts).of_sublist (List.sublist_append_right ..)

/-- The targets on the left stand before the assignments on the right, since only parts without
names stand before the targets. -/
theorem gives_assignment : ∀ {ts : List Tree}, AllFaithful source ts → Leads ts →
    ∀ descriptor, Gives ((leftNames ts).map (·.declares .value descriptor) ++ assignedOnRight ts)
      (namesOf ts)
  | [], _, _, _ => gives_nil
  | t :: ts, h, hleads, descriptor => by
    obtain ⟨ht, hts⟩ := allFaithful_cons.mp h
    rw [namesOf_cons]
    by_cases hleft : t.field = some .left
    · rw [leftNames_cons_left hleft, assignedOnRight, if_neg (by simp [hleft])]
      exact (gives_map_declares t.targetNames_sublist).append (gives_assignedOnRight hts)
    · obtain ⟨hnameless, hleads⟩ := hleads.resolve_left fun h => hleft h.1
      rw [leftNames_cons_of_ne hleft, assignedOnRight, hnameless.names_eq, List.nil_append]
      split
      · have hnone : t.assigned = [] := by
          have := gives_assigned ht
          rw [hnameless.names_eq] at this
          exact List.map_eq_nil_iff.mp (List.sublist_nil.mp this)
        rw [hnone, List.append_nil]
        exact (gives_assignment hts hleads descriptor).of_append_left
      · exact gives_assignment hts hleads descriptor

end

/-- A definition declares its name. -/
theorem gives_defined (h : t.IsFaithful source) : Gives t.defined t.names := by
  have hdeclares {name : Tree} {form : Declaration.Form} {descriptor : String}
      (hkind : t.kind = .functionDefinition ∨ t.kind = .classDefinition)
      (hname : t.child? .name = some name) : Gives [name.declares form descriptor] t.names := by
    obtain ⟨hmem, hfield⟩ := mem_of_child? hname
    have hidentifier := h.hasParts.definition hkind name hmem hfield
    have hnames : [name].Sublist t.names := by
      refine List.singleton_sublist.mpr ((names_sublist_of_part hmem).subset ?_)
      rw [names_of_name hidentifier]
      exact List.mem_cons_self
    exact gives_map_declares hnames
  unfold defined
  split
  · exact hdeclares (.inl ‹_›) ‹_›
  · exact hdeclares (.inr ‹_›) ‹_›
  · exact gives_nil

/-- A statement declares some of its names, in their order. -/
theorem gives_declared (h : t.IsFaithful source) : Gives t.declared t.names := by
  unfold declared
  split
  · cases hchild : t.child? .definition with
    | none => exact gives_nil
    | some u =>
      obtain ⟨hmem, -⟩ := mem_of_child? hchild
      exact (gives_defined (h.children u hmem)).of_sublist (names_sublist_of_part hmem)
  · exact (gives_flatMap fun u hu => gives_assigned (h.children u hu)).of_sublist
      (namesOf_children_sublist t)
  · exact gives_defined h

mutual

/-- The statements at the scope of a node have some of its names, in their order. -/
theorem namesOf_statements_sublist : ∀ t : Tree, (namesOf t.statements).Sublist t.names
  | ⟨kind, field, start, stop, children⟩ => by
    rw [statements]
    split
    · exact (namesOf_statementsIn_sublist children).trans
        (namesOf_children_sublist ⟨kind, field, start, stop, children⟩)
    · rw [namesOf_singleton]

theorem namesOf_statementsIn_sublist : ∀ ts : List Tree,
    (namesOf (statementsIn ts)).Sublist (namesOf ts)
  | [] => List.nil_sublist _
  | t :: ts => by
    rw [statementsIn, namesOf_cons]
    split
    · rw [namesOf_append]
      exact t.namesOf_statements_sublist.append (namesOf_statementsIn_sublist ts)
    · exact (namesOf_statementsIn_sublist ts).trans (List.sublist_append_right ..)

end

mutual

theorem allFaithful_statements : ∀ {t : Tree}, t.IsFaithful source →
    AllFaithful source t.statements
  | ⟨kind, field, start, stop, children⟩, h => by
    rw [statements]
    split
    · exact allFaithful_statementsIn h.children
    · exact allFaithful_cons.mpr ⟨h, allFaithful_nil⟩

theorem allFaithful_statementsIn : ∀ {ts : List Tree}, AllFaithful source ts →
    AllFaithful source (statementsIn ts)
  | [], _ => allFaithful_nil
  | t :: ts, h => by
    obtain ⟨ht, hts⟩ := allFaithful_cons.mp h
    rw [statementsIn]
    split
    · exact allFaithful_append.mpr ⟨allFaithful_statements ht, allFaithful_statementsIn hts⟩
    · exact allFaithful_statementsIn hts

end

/-- The declarations of a tree. -/
theorem gives_moduleStatements (h : t.IsFaithful source) :
    Gives (t.moduleStatements.flatMap declared) t.names :=
  (gives_flatMap fun _ hu => gives_declared (allFaithful_statementsIn h.children _ hu)).of_sublist
    ((namesOf_statementsIn_sublist t.children).trans (namesOf_children_sublist t))

end Tree

/-- What the tree of a source declares is found in source order. -/
theorem pairwise_declared {content : String} {tree : Tree}
    (htree : syntaxTree content = .ok tree) :
    (tree.moduleStatements.flatMap Tree.declared).Pairwise fun d e =>
      d.position.before e.position = true := by
  obtain ⟨hfaithful, hpast⟩ := syntaxTree_reads htree
  have hnames : (tree.names.map Tree.reference).Pairwise fun r s =>
      r.position.before s.position = true :=
    List.pairwise_map.mpr (hfaithful.names_pairwise hpast)
  exact List.pairwise_map.mp (hnames.sublist (Tree.gives_moduleStatements hfaithful))

open Declarations in
/-- A tree and the lines of a source declare names by one law: of all that is found, in source
order, each name counts once, by its first variable or its last definition, whichever is later. -/
theorem declarations_merged :
    (∀ tree : Tree, IsMergeOf (tree.moduleStatements.flatMap Tree.declared) tree.declarations) ∧
    ∀ content : String,
      (∀ tree, syntaxTree content = .ok tree →
        (tree.moduleStatements.flatMap Tree.declared).Pairwise fun d e =>
          d.position.before e.position = true) ∧
      ∃ found : List Declaration, found.Perm (Lines.foundDeclarations content) ∧
        (found.Pairwise fun d e => d.position.before e.position = true) ∧
        IsMergeOf found (Lines.declarations content) := by
  refine ⟨fun tree => isMergeOf_ofFound _, fun content => ⟨fun _ => pairwise_declared, ?_⟩⟩
  obtain ⟨found, hperm, hordered, hdeclarations⟩ := Lines.exists_declarations_eq content
  refine ⟨found, hperm, hordered, ?_⟩
  rw [hdeclarations]
  exact isMergeOf_ofFound found

open Declarations in
/-- A function takes the place of a variable before it, a second variable of the name does not
count, and the names keep the order in which they first appear. -/
theorem declarations_merged_interleaved :
    ∃ tree, syntaxTree "x = 1\ny = 2\ndef x():\n    pass\nx = 3\ny = 4" = .ok tree ∧
      (tree.moduleStatements.flatMap Tree.declared).map Declaration.place =
        [⟨"x", ⟨1, 1⟩⟩, ⟨"y", ⟨2, 1⟩⟩, ⟨"x", ⟨3, 5⟩⟩, ⟨"x", ⟨5, 1⟩⟩, ⟨"y", ⟨6, 1⟩⟩] ∧
      tree.declarations.map Declaration.place = [⟨"x", ⟨3, 5⟩⟩, ⟨"y", ⟨2, 1⟩⟩] ∧
      ((tree.moduleStatements.flatMap Tree.declared).Pairwise fun d e =>
        d.position.before e.position = true) ∧
      IsMergeOf (tree.moduleStatements.flatMap Tree.declared) tree.declarations := by
  obtain ⟨tree, htree, hfound, hcounting⟩ := @exists_syntaxTree
    "x = 1\ny = 2\ndef x():\n    pass\nx = 3\ny = 4"
    (fun tree => (tree.moduleStatements.flatMap Tree.declared).map Declaration.place =
        [⟨"x", ⟨1, 1⟩⟩, ⟨"y", ⟨2, 1⟩⟩, ⟨"x", ⟨3, 5⟩⟩, ⟨"x", ⟨5, 1⟩⟩, ⟨"y", ⟨6, 1⟩⟩] ∧
      tree.declarations.map Declaration.place = [⟨"x", ⟨3, 5⟩⟩, ⟨"y", ⟨2, 1⟩⟩]) _
    (by decide +kernel)
  exact ⟨tree, htree, hfound, hcounting, (declarations_merged.2 _).1 tree htree,
    declarations_merged.1 tree⟩

end Python

end SymbolAtlas
