import SymbolAtlas.Proofs.Python.ExcludedNames

/-! # Bound names are not read

No name occurs in two parts of the tree of a source, so whether it is read is decided along the way
to it. For a bound name the way leads through a construct that binds a part instead of reading it,
and from there on all parts are bound. Two ways are missed: through the star of an expression, which
stands in a list that `as` names, and behind the comma of an `except`.
-/

namespace SymbolAtlas.Python

variable {ts : List Tree} {t u n : Tree} {role : Role}

/-! ## Targets -/

/-- The name is a target, or stands in one through any nesting of tuples, lists, parentheses and
stars. -/
inductive IsBoundIn (n : Tree) : Tree → Prop
  | name : IsBoundIn n n
  | part {t u : Tree} (hkind : t.kind ∈ [.patternList, .tuplePattern, .listPattern,
      .listSplatPattern, .tuple, .list, .parenthesized, .listSplat, .asPatternTarget])
      (hu : u ∈ t.children) (h : IsBoundIn n u) : IsBoundIn n t

/-- The name stands in the target under the star of an expression. -/
inductive IsStarredIn (n : Tree) : Tree → Prop
  | star {t u : Tree} (hkind : t.kind = .listSplat) (hu : u ∈ t.children) (h : IsBoundIn n u) :
      IsStarredIn n t
  | part {t u : Tree} (hkind : Role.isContainer t.kind = true ∨ t.kind = .asPatternTarget)
      (hu : u ∈ t.children) (h : IsStarredIn n u) : IsStarredIn n t

/-- The part that stands after the comma of an `except`, if there is one. -/
def Tree.caught? (t : Tree) : Option Tree :=
  (t.children.dropWhile fun u => !(u.kind == .mark && u.text == ",")).tail.find? (!·.isExtra)

/-- The construct binds the part: it is what an assignment or a loop has on its left, what `as`
gives a name to, or what stands after the comma of an `except`. -/
inductive IsBoundBy (t : Tree) : Tree → Prop
  | left {c : Tree}
      (hkind : c.kind ∈ [.assignment, .augmentedAssignment, .forStatement, .forInClause])
      (h : c.child? .left = some t) : IsBoundBy t c
  | renamed {c : Tree} (hkind : c.kind = .asPattern) (h : t ∈ c.namedChildren.tail) : IsBoundBy t c
  | caught {c : Tree} (hkind : c.kind = .exceptClause) (h : c.caught? = some t) : IsBoundBy t c

/-- The name is missed where it is bound: after the comma of an `except`, or under the star of an
expression in what `as` gives a name to. -/
def IsMissed (n t c : Tree) : Prop :=
  c.kind = .exceptClause ∨ c.kind = .asPattern ∧ IsStarredIn n t

theorem mem_nodes_self (t : Tree) : t ∈ t.nodes := by
  obtain ⟨kind, field, start, stop, children⟩ := t
  exact List.mem_cons_self

/-- What holds of a node, and of whatever has a part with the node for which it holds, holds of
every tree with the node. -/
theorem Tree.of_mem_nodes {c : Tree} {P : Tree → Prop} (hself : P c)
    (hpart : ∀ {t u : Tree}, u ∈ t.children → c ∈ u.nodes → P u → P t) {t : Tree}
    (hc : c ∈ t.nodes) : P t := by
  by_cases heq : c = t
  · exact heq ▸ hself
  · obtain ⟨u, hu, hcu⟩ : ∃ u ∈ t.children, c ∈ u.nodes := by
      obtain ⟨kind, field, start, stop, children⟩ := t
      exact mem_nodesOf.mp ((List.mem_cons.mp hc).resolve_left heq)
    exact hpart hu hcu (of_mem_nodes hself hpart hcu)
termination_by sizeOf t
decreasing_by exact sizeOf_lt_of_mem_children hu

theorem mem_nodes_of_part (hu : u ∈ t.children) (hn : n ∈ u.nodes) : n ∈ t.nodes := by
  obtain ⟨kind, field, start, stop, children⟩ := t
  exact List.mem_cons_of_mem _ (mem_nodesOf.mpr ⟨u, hu, hn⟩)

theorem mem_nodes_of_mem_nodes {c : Tree} (hc : c ∈ t.nodes) (hn : n ∈ c.nodes) : n ∈ t.nodes :=
  Tree.of_mem_nodes (P := fun t => n ∈ t.nodes) hn (fun hu _ => mem_nodes_of_part hu) hc

theorem Tree.names_sublist_of_mem_nodes {c : Tree} (hc : c ∈ t.nodes) :
    c.names.Sublist t.names :=
  of_mem_nodes (P := fun t => c.names.Sublist t.names) (List.Sublist.refl _)
    (fun hu _ h => h.trans (names_sublist_of_part hu)) hc

theorem IsTarget.mem_names (h : IsTarget n t) (hn : n.kind = .identifier) : n ∈ t.names := by
  induction h with
  | name => exact Tree.mem_names.mpr ⟨mem_nodes_self n, hn⟩
  | part _ hu _ ih => exact (Tree.names_sublist_of_part hu).subset ih

theorem IsBoundIn.mem_names (h : IsBoundIn n t) (hn : n.kind = .identifier) : n ∈ t.names := by
  induction h with
  | name => exact Tree.mem_names.mpr ⟨mem_nodes_self n, hn⟩
  | part _ hu _ ih => exact (Tree.names_sublist_of_part hu).subset ih

theorem mem_targetKinds : t.kind ∈ [.patternList, .tuplePattern, .listPattern, .listSplatPattern,
    .tuple, .list, .parenthesized, .listSplat, .asPatternTarget] ↔
      t.kind = .listSplat ∨ Role.isContainer t.kind = true ∨ t.kind = .asPatternTarget := by
  simp only [Role.isContainer, List.contains_iff_mem, List.mem_cons, List.not_mem_nil, or_false]
  tauto

theorem IsStarredIn.isBoundIn (h : IsStarredIn n t) : IsBoundIn n t := by
  induction h with
  | star hkind hu h => exact .part (mem_targetKinds.mpr (.inl hkind)) hu h
  | part hkind hu _ ih => exact .part (mem_targetKinds.mpr (.inr hkind)) hu ih

/-- A bound name is a target that is known to be one, unless it stands under the star of an
expression. -/
theorem IsBoundIn.isTarget_or (h : IsBoundIn n t) : IsTarget n t ∨ IsStarredIn n t := by
  induction h with
  | name => exact .inl .name
  | part hkind hu h ih =>
    rcases mem_targetKinds.mp hkind with hstar | hlist
    · exact .inr (.star hstar hu h)
    · exact ih.imp (.part hlist hu) (.part hlist hu)

/-- What may hold targets is no target as it stands, so as a pattern it is a list of patterns. -/
theorem Tree.IsPattern.parts (ht : t.IsPattern) (hkind : t.kind ∈ [.patternList, .tuplePattern,
    .listPattern, .listSplatPattern, .tuple, .list, .parenthesized, .listSplat,
    .asPatternTarget]) :
    t.kind ∈ [.patternList, .tuplePattern, .listPattern, .listSplatPattern] ∧
      ∀ u ∈ t.children, n ∈ u.names → u.IsPattern := by
  cases ht with
  | bindable hbindable =>
    have hname : t.kind = .identifier ∨ t.kind = .attribute ∨ t.kind = .subscript := by
      simpa [Tree.isBindable, or_assoc] using hbindable
    rcases hname with hname | hname | hname <;> simp [hname] at hkind
  | list hlist hparts => exact ⟨hlist, fun u hu hn => hparts u hu fun h => h.not_mem_names hn⟩

/-- In a pattern all stars are part of it. -/
theorem IsBoundIn.isTarget (h : IsBoundIn n t) (hn : n.kind = .identifier) (ht : t.IsPattern) :
    IsTarget n t := by
  induction h with
  | name => exact .name
  | @part t u hkind hu h ih =>
    obtain ⟨hlist, hparts⟩ := ht.parts hkind
    refine .part (.inl ?_) hu (ih (hparts u hu (h.mem_names hn)))
    simp only [List.mem_cons, List.not_mem_nil, or_false] at hlist
    rcases hlist with hlist | hlist | hlist | hlist <;> rw [hlist] <;> rfl

/-! ## Names that occur once -/

/-- Each name of the tree occurs in it once. -/
def Tree.HasNamesOnce (t : Tree) : Prop := (t.names.map reference).Nodup

def NamesOnce (ts : List Tree) : Prop := ((namesOf ts).map Tree.reference).Nodup

theorem Tree.HasNamesOnce.children (h : t.HasNamesOnce) : NamesOnce t.children := by
  unfold HasNamesOnce at h
  by_cases hkind : t.kind = .identifier
  · rw [names_of_name hkind, List.map_cons] at h
    exact (List.nodup_cons.mp h).2
  · rwa [names_of_kind hkind] at h

theorem namesOnce_cons : NamesOnce (t :: ts) ↔ t.HasNamesOnce ∧ NamesOnce ts ∧
    (t.names.map Tree.reference).Disjoint ((namesOf ts).map Tree.reference) := by
  rw [NamesOnce, namesOf_cons, List.map_append, List.nodup_append']
  rfl

/-- A name that occurs once does not occur again in a later part. -/
theorem NamesOnce.not_mem_namesOf (h : NamesOnce (t :: ts)) (hn : n ∈ t.names) :
    n ∉ namesOf ts := fun hmem =>
  (namesOnce_cons.mp h).2.2 (List.mem_map_of_mem hn) (List.mem_map_of_mem hmem)

theorem NamesOnce.of_part (h : NamesOnce ts) (hu : u ∈ ts) : u.HasNamesOnce := by
  induction ts with
  | nil => cases hu
  | cons t ts ih =>
    obtain ⟨ht, hts, -⟩ := namesOnce_cons.mp h
    rcases List.mem_cons.mp hu with rfl | hu
    · exact ht
    · exact ih hts hu

/-- A part that has the name is the only one that could read it. -/
theorem NamesOnce.not_mem_readInAll (h : NamesOnce ts) (hu : u ∈ ts) (hn : n ∈ u.names)
    {roles : List Role}
    (hread : ∀ role, (role, u) ∈ roles.zip ts → n.reference ∉ u.readIn role) :
    n.reference ∉ readInAll roles ts := by
  induction ts generalizing roles with
  | nil => cases hu
  | cons t ts ih =>
    cases roles with
    | nil =>
      rw [readInAll.eq_def]
      exact List.not_mem_nil
    | cons role roles =>
      obtain ⟨-, hts, hdisjoint⟩ := namesOnce_cons.mp h
      rw [readInAll, List.mem_append, not_or]
      rcases List.mem_cons.mp hu with rfl | hu
      · refine ⟨hread role List.mem_cons_self, fun hlater => ?_⟩
        exact hdisjoint (List.mem_map_of_mem hn) ((readInAll_sublist roles ts).subset hlater)
      · refine ⟨fun hhere => ?_, ih hts hu fun role' hzip =>
          hread role' (List.mem_cons_of_mem _ hzip)⟩
        exact hdisjoint ((t.readIn_sublist role).subset hhere)
          (List.mem_map_of_mem (mem_namesOf.mpr ⟨u, hu, hn⟩))

/-- If no way of reading a part with the name reads it, no way of reading the whole does. -/
theorem Tree.not_mem_readIn (h : t.HasNamesOnce) (hu : u ∈ t.children) (hn : n ∈ u.names)
    (hread : ∀ role', (role', u) ∈ (role.ofChildren t.kind t.children).zip t.children →
      n.reference ∉ u.readIn role') : n.reference ∉ t.readIn role := by
  have hchildren := h.children.not_mem_readInAll hu hn hread
  by_cases hkind : t.kind = .identifier
  · rw [HasNamesOnce, names_of_name hkind, List.map_cons, List.nodup_cons] at h
    -- A name reads nothing but itself.
    have hne : n.reference ≠ t.reference := fun heq => by
      rw [← heq] at h
      exact h.1 (List.mem_map_of_mem (mem_namesOf.mpr ⟨u, hu, hn⟩))
    obtain ⟨kind, field, start, stop, children⟩ := t
    rw [readIn, if_pos hkind]
    split
    · exact fun hmem => hne (List.mem_singleton.mp hmem)
    · exact List.not_mem_nil
  · obtain ⟨kind, field, start, stop, children⟩ := t
    rwa [readIn, if_neg hkind]

/-- A name is read only if each node on the way to it may read it. -/
theorem Tree.not_mem_readIn_of_mem_nodes {c : Tree} (hn : n ∈ c.names)
    (hread : ∀ role, n.reference ∉ c.readIn role) (h : t.HasNamesOnce)
    (hc : c ∈ t.nodes) (role : Role) : n.reference ∉ t.readIn role := by
  refine of_mem_nodes (P := fun t => t.HasNamesOnce → ∀ role, n.reference ∉ t.readIn role)
    (fun _ => hread) ?_ hc h role
  intro t u hu hc ih h role
  exact not_mem_readIn h hu ((names_sublist_of_mem_nodes hc).subset hn) fun role' _ =>
    ih (h.children.of_part hu) role'

/-! ## Roles of targets -/

section Zip

variable {first : Role} {f : Tree → Role}

theorem eq_of_mem_zip_map (h : (role, u) ∈ (ts.map f).zip ts) : role = f u := by
  induction ts with
  | nil => cases h
  | cons t ts ih =>
    rcases List.mem_cons.mp h with h | h
    · cases h
      rfl
    · exact ih h

theorem mem_of_mem_zip {roles : List Role} (h : (role, u) ∈ roles.zip ts) : u ∈ ts :=
  (List.of_mem_zip h).2

theorem ofField_ne_read {roles : List (Field × Role)}
    (hroles : ∀ f, List.lookup f roles ≠ some .read) (t : Tree) :
    Role.ofField roles t ≠ .read := by
  unfold Role.ofField
  cases t.field with
  | none => exact Role.noConfusion
  | some f =>
    rw [Option.bind_some]
    cases hlookup : List.lookup f roles with
    | none => exact Role.noConfusion
    | some role => exact fun heq => hroles f (hlookup.trans (congrArg some heq))

theorem ne_read_of_mem_byField_zip {roles : List (Field × Role)}
    (hroles : ∀ f, List.lookup f roles ≠ some .read)
    (h : (role, u) ∈ (Role.byField roles ts).zip ts) : role ≠ .read := by
  rw [eq_of_mem_zip_map h]
  exact ofField_ne_read hroles u

theorem ne_read_of_mem_firstNamed_zip {role' : Role} (hfirst : first ≠ .read)
    (h : (role', u) ∈ (Role.firstNamed first ts).zip ts) : role' ≠ .read := by
  induction ts with
  | nil => cases h
  | cons t ts ih =>
    rw [Role.firstNamed] at h
    split at h
    · rcases List.mem_cons.mp h with h | h
      · cases h
        exact hfirst
      · rw [eq_of_mem_zip_map h]
        decide
    · rcases List.mem_cons.mp h with h | h
      · cases h
        decide
      · exact ih h

/-- The target of a loop is bound. -/
theorem NamesOnce.aroundLeft_zip (h : NamesOnce ts)
    (hleft : ts.find? (·.field == some .left) = some u) (hn : n ∈ u.names)
    (hzip : (role, u) ∈ (Role.aroundLeft ts).zip ts) : role ≠ .read := by
  induction ts with
  | nil => cases hzip
  | cons t ts ih =>
    rw [Role.aroundLeft] at hzip
    split at hzip
    · rename_i hfield
      rw [List.find?_cons_of_pos (by simpa using hfield)] at hleft
      obtain rfl := Option.some.inj hleft
      rcases List.mem_cons.mp hzip with hzip | hzip
      · cases hzip
        decide
      · -- The target would stand in the loop twice.
        exact absurd (mem_namesOf.mpr ⟨t, mem_of_mem_zip hzip, hn⟩) (h.not_mem_namesOf hn)
    · rename_i hfield
      rw [List.find?_cons_of_neg (by simpa using hfield)] at hleft
      rcases List.mem_cons.mp hzip with hzip | hzip
      · cases hzip
        decide
      · exact ih (namesOnce_cons.mp h).2.1 hleft hzip

/-- What `as` gives a name to is not read. -/
theorem NamesOnce.asPattern_zip (h : NamesOnce ts) (hlater : u ∈ (ts.filter Tree.isNamed).tail)
    (hn : n ∈ u.names)
    (hzip : (role, u) ∈ (List.zipWith Role.orField (Role.firstNamed .read ts)
      (Role.byField [(.rename, .bound)] ts)).zip ts) : role ≠ .read := by
  have hrename (f : Field) : List.lookup f [(Field.rename, Role.bound)] ≠ some .read := by
    rw [List.lookup_cons]
    split <;> simp
  induction ts with
  | nil => cases hzip
  | cons t ts ih =>
    rw [Role.firstNamed] at hzip
    split at hzip
    · rename_i hnamed
      rw [List.filter_cons_of_pos hnamed, List.tail_cons] at hlater
      rcases List.mem_cons.mp hzip with hzip | hzip
      · -- Only the first part is read, and it is not one of the later ones.
        cases hzip
        exact absurd (mem_namesOf.mpr ⟨u, (List.mem_filter.mp hlater).1, hn⟩)
          (h.not_mem_namesOf hn)
      · exact ne_read_of_mem_byField_zip hrename (zipWith_orField_ignored _ ts ▸ hzip)
    · rename_i hnamed
      rw [List.filter_cons_of_neg hnamed] at hlater
      rcases List.mem_cons.mp hzip with hzip | hzip
      · cases hzip
        exact ofField_ne_read hrename u
      · exact ih (namesOnce_cons.mp h).2.1 hlater hzip

/-- In a role that neither reads nor binds, only a parameter has parts that are read. -/
theorem ne_read_of_mem_ofChildren_zip {kind : Kind} {role' : Role}
    (hkind : kind ∉ [.defaultParameter, .typedParameter, .typedDefaultParameter])
    (hzip : (role', u) ∈ (role.ofChildren kind ts).zip ts)
    (h : role = .read ∨ role = .bound → role' ≠ .read) : role' ≠ .read := by
  cases role with
  | read => exact h (.inl rfl)
  | bound => exact h (.inr rfl)
  | parameters =>
    rw [eq_of_mem_zip_map hzip]
    exact Role.noConfusion
  | parameter =>
    have hroles : Role.ofChildren .parameter kind ts = ts.map fun _ => .ignored := by
      unfold Role.ofChildren
      split <;> simp_all
    rw [hroles] at hzip
    rw [eq_of_mem_zip_map hzip]
    exact Role.noConfusion
  | ignored =>
    rw [eq_of_mem_zip_map hzip]
    exact Role.noConfusion

/-- In a list of targets no target is read. -/
theorem ne_read_of_mem_list_zip {kind : Kind} {role' : Role}
    (hkind : Role.isContainer kind = true ∨ kind = .asPatternTarget) (hrole : role ≠ .read)
    (hzip : (role', u) ∈ (role.ofChildren kind ts).zip ts) : role' ≠ .read := by
  refine ne_read_of_mem_ofChildren_zip (fun hmem => ?_) hzip fun h => ?_
  · fin_cases hmem <;> simp [Role.isContainer] at hkind
  · obtain rfl := h.resolve_left hrole
    rw [Role.ofChildren] at hzip
    split at hzip
    · rw [eq_of_mem_zip_map hzip]
      exact Role.noConfusion
    · rename_i hcontainer
      rw [if_pos (hkind.resolve_left hcontainer)] at hzip
      exact ne_read_of_mem_firstNamed_zip Role.noConfusion hzip

/-- A construct that binds a part where it is read does so in every role. -/
theorem ne_read_of_mem_construct_zip {kind : Kind} {role' : Role}
    (hkind : kind ∈ [.assignment, .augmentedAssignment, .forStatement, .forInClause, .asPattern])
    (hbound : ∀ role', (role', u) ∈ (Role.whereRead kind ts).zip ts → role' ≠ .read)
    (hzip : (role', u) ∈ (role.ofChildren kind ts).zip ts) : role' ≠ .read := by
  refine ne_read_of_mem_ofChildren_zip (fun hmem => ?_) hzip fun h => hbound role' ?_
  · fin_cases hmem <;> simp at hkind
  · rcases h with rfl | rfl
    · exact hzip
    · fin_cases hkind <;> exact hzip

end Zip

/-- A target is not read in any role but that of what is read. -/
theorem IsTarget.not_mem_readIn (h : IsTarget n t) (hn : n.kind = .identifier)
    (hnames : t.HasNamesOnce) (hrole : role ≠ .read) :
    n.reference ∉ t.readIn role := by
  induction h generalizing role with
  | name =>
    obtain ⟨kind, field, start, stop, children⟩ := n
    rw [Tree.readIn, if_pos hn, if_neg hrole]
    exact List.not_mem_nil
  | @part t u hkind hu h ih =>
    refine Tree.not_mem_readIn hnames hu (h.mem_names hn) fun role' hzip => ?_
    exact ih (hnames.children.of_part hu) (ne_read_of_mem_list_zip hkind hrole hzip)

/-! ## Constructs that bind -/

section Constructs

variable {c : Tree}

/-- A target that its construct never reads has no names that are read. -/
theorem Tree.not_mem_readIn_of_isTarget (hnames : c.HasNamesOnce)
    (hkind : c.kind ∈ [.assignment, .augmentedAssignment, .forStatement, .forInClause, .asPattern])
    (ht : t ∈ c.children) (h : IsTarget n t) (hn : n.kind = .identifier)
    (hbound : ∀ role, (role, t) ∈ (Role.whereRead c.kind c.children).zip c.children →
      role ≠ .read) (role : Role) : n.reference ∉ c.readIn role :=
  not_mem_readIn hnames ht (h.mem_names hn) fun _ hzip =>
    h.not_mem_readIn hn (hnames.children.of_part ht)
      (ne_read_of_mem_construct_zip hkind hbound hzip)

theorem Tree.not_mem_readIn_of_left (hnames : c.HasNamesOnce)
    (hkind : c.kind ∈ [.assignment, .augmentedAssignment, .forStatement, .forInClause])
    (hleft : c.child? .left = some t) (h : IsTarget n t) (hn : n.kind = .identifier)
    (role : Role) : n.reference ∉ c.readIn role := by
  have ht : t ∈ c.children := List.mem_of_find?_eq_some hleft
  have hfield : t.field = some .left := by simpa using List.find?_some hleft
  have hassigned {role : Role} (hzip : (role, t) ∈ (Role.byField
      [(.left, .bound), (.type, .read), (.right, .read)] c.children).zip c.children) :
      role ≠ .read := by
    rw [eq_of_mem_zip_map hzip, ofField_of_eq hfield]
    exact Role.noConfusion
  have hlooped {role : Role} (hzip : (role, t) ∈ (Role.aroundLeft c.children).zip c.children) :
      role ≠ .read := hnames.children.aroundLeft_zip hleft (h.mem_names hn) hzip
  have hconstruct : c.kind ∈
      [.assignment, .augmentedAssignment, .forStatement, .forInClause, .asPattern] :=
    List.mem_append_left [Kind.asPattern] hkind
  refine not_mem_readIn_of_isTarget hnames hconstruct ht h hn (fun role hzip => ?_) role
  simp only [List.mem_cons, List.not_mem_nil, or_false] at hkind
  rcases hkind with hkind | hkind | hkind | hkind <;> rw [hkind] at hzip
  · exact hassigned hzip
  · exact hassigned hzip
  · exact hlooped hzip
  · exact hlooped hzip

theorem Tree.not_mem_readIn_of_renamed (hnames : c.HasNamesOnce)
    (hkind : c.kind = .asPattern) (hlater : t ∈ c.namedChildren.tail) (h : IsTarget n t)
    (hn : n.kind = .identifier) (role : Role) : n.reference ∉ c.readIn role := by
  have ht : t ∈ c.children := (List.mem_filter.mp (List.mem_of_mem_tail hlater)).1
  refine not_mem_readIn_of_isTarget hnames (by simp [hkind]) ht h hn (fun role hzip => ?_) role
  rw [hkind] at hzip
  exact hnames.children.asPattern_zip hlater (h.mem_names hn) hzip

/-- What a construct binds is one of its parts. -/
theorem IsBoundBy.mem_children (h : IsBoundBy t c) : t ∈ c.children := by
  cases h with
  | left hkind h => exact List.mem_of_find?_eq_some h
  | renamed hkind h => exact (List.mem_filter.mp (List.mem_of_mem_tail h)).1
  | caught hkind h =>
    exact (List.dropWhile_sublist _).subset (List.mem_of_mem_tail (List.mem_of_find?_eq_some h))

/-! ## Names that are missed -/

theorem whereRead_eq_map_read {kind : Kind} (hkind : kind ∈ [.patternList, .tuplePattern,
    .listPattern, .listSplatPattern, .tuple, .list, .parenthesized, .listSplat, .asPatternTarget,
    .exceptClause]) : Role.whereRead kind ts = ts.map fun _ => .read := by
  fin_cases hkind <;> rfl

theorem Tree.mem_readIn_of_all {role' : Role} (hkind : t.kind ≠ .identifier)
    (hroles : role.ofChildren t.kind t.children = t.children.map fun _ => role')
    (hu : u ∈ t.children) (hn : n.reference ∈ u.readIn role') : n.reference ∈ t.readIn role :=
  mem_readIn hkind (hroles ▸ mem_zip_map _ hu) hn

/-- Where a target is read, all names that would be bound in it are read. -/
theorem IsBoundIn.mem_readIn (h : IsBoundIn n t) (hn : n.kind = .identifier) :
    n.reference ∈ t.readIn .read := by
  induction h with
  | name =>
    obtain ⟨kind, field, start, stop, children⟩ := n
    rw [Tree.readIn, if_pos hn, if_pos rfl]
    exact List.mem_singleton_self _
  | @part t u hkind hu h ih =>
    refine Tree.mem_readIn_of_all (fun hname => ?_) ?_ hu ih
    · simp [hname] at hkind
    · exact whereRead_eq_map_read (List.mem_append_left [Kind.exceptClause] hkind)

/-- Where a target is bound, the names under the star of an expression are read. -/
theorem IsStarredIn.mem_readIn {source : List Char} (h : IsStarredIn n t)
    (ht : t.IsFaithful source) (hn : n.kind = .identifier) : n.reference ∈ t.readIn .bound := by
  induction h with
  | @star t u hkind hu h =>
    refine Tree.mem_readIn_of_all (by simp [hkind]) ?_ hu (h.mem_readIn hn)
    rw [hkind]
    rfl
  | @part t u hkind hu h ih =>
    refine Tree.mem_readIn (fun hname => ?_)
      (ht.bound_zip hkind hu (h.isBoundIn.mem_names hn)) (ih (ht.children u hu))
    simp [hname, Role.isContainer] at hkind

/-- A renaming reads the names under the star of an expression in what it gives a name to. -/
theorem Tree.IsFaithful.mem_readIn_of_renamed {source : List Char} (hc : c.IsFaithful source)
    (hkind : c.kind = .asPattern) (hlater : t ∈ c.namedChildren.tail) (h : IsStarredIn n t)
    (hn : n.kind = .identifier) : n.reference ∈ c.readIn .read := by
  have ht : t ∈ c.children := (List.mem_filter.mp (List.mem_of_mem_tail hlater)).1
  have hfaithful := hc.children t ht
  have hnt := h.isBoundIn.mem_names hn
  have hfield : t.field = some .rename := by
    rcases (hc.hasParts.asPattern hkind).of_mem_tail (mem_tail_of_mem_filter_tail hlater) with
      hname | hplays
    · cases h with
      | star hstar => simp [hname] at hstar
      | part hlist => simp [hname, Role.isContainer] at hlist
    · rcases hplays.cases hfaithful hnt with ⟨f, hf, hmem⟩ | ⟨-, f, -, hf⟩
      · rwa [List.mem_singleton.mp hmem] at hf
      · cases hf
  have hroles : Role.ofChildren .read c.kind c.children =
      List.zipWith Role.orField (Role.firstNamed .read c.children)
        (Role.byField [(.rename, .bound)] c.children) := by
    rw [hkind]
    rfl
  rcases firstNamed_zip ht (hfaithful.isNamed hnt) with hzip | ⟨-, hzip⟩
  · exact mem_readIn (by simp [hkind]) (hroles ▸ hzip) (h.isBoundIn.mem_readIn hn)
  · refine mem_readIn (by simp [hkind]) (hroles ▸ hzip) ?_
    rw [ofField_of_eq hfield]
    exact h.mem_readIn hfaithful hn

/-- A construct reads the names that it misses. -/
theorem IsMissed.mem_references {source : List Char} (h : IsMissed n t c)
    (hby : IsBoundBy t c) (hc : c.IsFaithful source) (hbound : IsBoundIn n t)
    (hn : n.kind = .identifier) : n.reference ∈ c.references := by
  rw [hc.references_eq]
  rcases h with hkind | ⟨hkind, hstarred⟩
  · refine Tree.mem_readIn_of_all (by simp [hkind]) ?_ hby.mem_children (hbound.mem_readIn hn)
    exact whereRead_eq_map_read (by simp [hkind])
  · cases hby with
    | left hother => simp [hkind] at hother
    | renamed _ hlater => exact hc.mem_readIn_of_renamed hkind hlater hstarred hn
    | caught hother => simp [hkind] at hother

namespace Tree.IsFaithful

variable {source : List Char}

theorem leads (hc : c.IsFaithful source)
    (hkind : c.kind ∈ [.assignment, .augmentedAssignment, .forStatement, .forInClause]) :
    Leads c.children := by
  have hparts := hc.hasParts
  simp only [List.mem_cons, List.not_mem_nil, or_false] at hkind
  rcases hkind with hkind | hkind | hkind | hkind
  · exact hparts.target (.inl hkind)
  · exact hparts.target (.inr hkind)
  · exact hparts.loop (.inl hkind)
  · exact hparts.loop (.inr hkind)

/-- A construct that reads a name which it binds misses it. -/
theorem isMissed_of_mem_readIn (hc : c.IsFaithful source) (hnames : c.HasNamesOnce)
    (hby : IsBoundBy t c) (hbound : IsBoundIn n t) (hn : n.kind = .identifier)
    (hread : n.reference ∈ c.readIn role) : IsMissed n t c := by
  cases hby with
  | left hkind hleft =>
    have hpattern := (hc.leads hkind).isPattern_left hleft
      fun h => h.not_mem_names (hbound.mem_names hn)
    have htarget := hbound.isTarget hn hpattern
    exact absurd hread (not_mem_readIn_of_left hnames hkind hleft htarget hn role)
  | renamed hkind hlater =>
    refine .inr ⟨hkind, hbound.isTarget_or.resolve_left fun htarget => ?_⟩
    exact not_mem_readIn_of_renamed hnames hkind hlater htarget hn role hread
  | caught hkind => exact .inl hkind

theorem positions_nodup (h : u.IsFaithful source) (hpast : u.past 0 ≠ ⊤) :
    (u.names.map position).Nodup :=
  List.pairwise_map.mpr ((h.names_pairwise hpast).imp Position.ne_of_before)

/-- A bound name is read by the construct that binds it if it stands after the comma of an `except`,
or in what `as` names under the star of an expression. In a tree whose names stand in order no
reference stands at the place of any other bound name. -/
theorem isMissed_of_read (h : u.IsFaithful source) (hpast : u.past 0 ≠ ⊤) (hc : c ∈ u.nodes)
    (hby : IsBoundBy t c) (hbound : IsBoundIn n t) (hn : n.kind = .identifier) :
    (IsMissed n t c → n.reference ∈ c.references) ∧
      ∀ r ∈ u.references, r.position = n.position → IsMissed n t c := by
  have hpositions := h.positions_nodup hpast
  have hnames : u.HasNamesOnce :=
    List.Nodup.of_map Reference.position (by rwa [List.map_map])
  have hfaithful : c.IsFaithful source := fun m hm => h m (mem_nodes_of_mem_nodes hc hm)
  have hsublist := names_sublist_of_mem_nodes hc
  refine ⟨fun h => h.mem_references hby hfaithful hbound hn, fun r hr hposition => ?_⟩
  have hnc : n ∈ c.names := (names_sublist_of_part hby.mem_children).subset (hbound.mem_names hn)
  -- The reference is the name itself, since no other name stands at its place.
  obtain ⟨m, hm, hkind, rfl⟩ := h.exists_of_mem_references hr
  obtain rfl := List.inj_on_of_nodup_map hpositions (mem_names.mpr ⟨hm, hkind⟩)
    (hsublist.subset hnc) hposition
  by_contra hmissed
  rw [h.references_eq] at hr
  refine not_mem_readIn_of_mem_nodes hnc (fun role hread => hmissed ?_) hnames hc .read hr
  exact hfaithful.isMissed_of_mem_readIn (hnames.sublist (hsublist.map reference)) hby hbound hn
    hread

end Tree.IsFaithful

/-- A bound name is read by the construct that binds it if it stands after the comma of an `except`,
or in what `as` names under the star of an expression. In the tree of a source no reference stands
at the place of any other bound name. -/
theorem read_of_bound {content : String} {tree : Tree} (htree : syntaxTree content = .ok tree) :
    ∀ c ∈ tree.nodes, ∀ t n : Tree, IsBoundBy t c → IsBoundIn n t → n.kind = .identifier →
      (IsMissed n t c → n.reference ∈ c.references) ∧
      ∀ r ∈ tree.references, r.position = n.position → IsMissed n t c :=
  have ⟨hfaithful, hpast⟩ := syntaxTree_reads htree
  fun _ hc _ _ => hfaithful.isMissed_of_read hpast hc

end Constructs

/-- The names that a loop binds in a tuple and under a star are not read. -/
theorem read_of_bound_inLoop :
    ∃ tree, syntaxTree "for i, (*j, k) in x:\n    pass" = .ok tree ∧
      tree.references.map Reference.name = ["x"] ∧
      ∃ c ∈ tree.nodes, ∃ t n, IsBoundBy t c ∧ IsBoundIn n t ∧ n.text = "j" ∧
        ∀ r ∈ tree.references, r.position ≠ n.position := by
  obtain ⟨tree, htree, hread, c, hc, hkind, hleft⟩ :=
    @exists_syntaxTree "for i, (*j, k) in x:\n    pass"
      (fun tree => tree.references.map Reference.name = ["x"] ∧
        ∃ c ∈ tree.nodes, c.kind = .forStatement ∧ (c.child? .left).any (fun t =>
          ∃ u ∈ t.children, ∃ star ∈ u.children, ∃ n ∈ star.children,
            [t.kind, u.kind, star.kind, n.kind] =
              [.patternList, .tuplePattern, .listSplatPattern, .identifier] ∧
            n.text = "j") = true) _
      (by decide +kernel)
  obtain ⟨t, ht, hparts⟩ := (Option.any_eq_true ..).mp hleft
  obtain ⟨u, hu, star, hstar, n, hn, hkinds, htext⟩ := of_decide_eq_true hparts
  simp only [List.cons.injEq, and_true] at hkinds
  obtain ⟨hlist, htuple, hsplat, hname⟩ := hkinds
  have hby : IsBoundBy t c := .left (by simp [hkind]) ht
  have hbound : IsBoundIn n t :=
    .part (by simp [hlist]) hu (.part (by simp [htuple]) hstar (.part (by simp [hsplat]) hn .name))
  refine ⟨tree, htree, hread, c, hc, t, n, hby, hbound, htext, fun r hr hposition => ?_⟩
  rcases (read_of_bound htree c hc t n hby hbound hname).2 r hr hposition with hother | ⟨hother, -⟩
  · rw [hkind] at hother
    cases hother
  · rw [hkind] at hother
    cases hother

/-- Two kinds of bound names are read: one after the comma of an `except`, and one under a star in a
tuple that `as` names. -/
theorem exists_bound_read :
    (∃ tree, syntaxTree "try:\n    f()\nexcept E, e:\n    pass\n" = .ok tree ∧
      ∃ c ∈ tree.nodes, ∃ n, IsBoundBy n c ∧ n.kind = .identifier ∧ n.text = "e" ∧
        n.reference ∈ tree.references) ∧
    ∃ tree, syntaxTree "with f() as (a, *b):\n    pass\n" = .ok tree ∧
      ∃ c ∈ tree.nodes, ∃ t n, IsBoundBy t c ∧ IsBoundIn n t ∧ n.kind = .identifier ∧ n.text = "b" ∧
        n.reference ∈ tree.references := by
  constructor
  · obtain ⟨tree, htree, c, hc, hkind, hcaught⟩ :=
      @exists_syntaxTree "try:\n    f()\nexcept E, e:\n    pass\n"
        (fun tree => ∃ c ∈ tree.nodes, c.kind = .exceptClause ∧ c.caught?.any (fun n =>
          n.kind = .identifier ∧ n.text = "e" ∧ n.reference ∈ tree.references) = true) _
        (by decide +kernel)
    obtain ⟨n, hn, hprops⟩ := (Option.any_eq_true ..).mp hcaught
    obtain ⟨hname, htext, hread⟩ := of_decide_eq_true hprops
    exact ⟨tree, htree, c, hc, n, .caught hkind hn, hname, htext, hread⟩
  · obtain ⟨tree, htree, c, hc, hkind, t, ht, u, hu, star, hstar, n, hn, hkinds, htext, hread⟩ :=
      @exists_syntaxTree "with f() as (a, *b):\n    pass\n"
        (fun tree => ∃ c ∈ tree.nodes, c.kind = .asPattern ∧ ∃ t ∈ c.namedChildren.tail,
          ∃ u ∈ t.children, ∃ star ∈ u.children, ∃ n ∈ star.children,
            [t.kind, u.kind, star.kind, n.kind] =
              [.asPatternTarget, .tuple, .listSplat, .identifier] ∧
            n.text = "b" ∧ n.reference ∈ tree.references) _
        (by decide +kernel)
    simp only [List.cons.injEq, and_true] at hkinds
    obtain ⟨htarget, htuple, hsplat, hname⟩ := hkinds
    refine ⟨tree, htree, c, hc, t, n, .renamed hkind ht, ?_, hname, htext, hread⟩
    refine .part (by simp [htarget]) hu (.part (by simp [htuple]) hstar ?_)
    exact .part (by simp [hsplat]) hn .name

end SymbolAtlas.Python
