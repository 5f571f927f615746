import SymbolAtlas.Proofs.Python.ReferenceOrder

/-! # Names that are no references

A name of a tree is read, unless a construct excludes it from the references by the place at which
it has the name: what is defined or bound there, or named without being looked up. The grammar lays
down where names may stand in a construct, and at each such place the name is read or excluded.
-/

namespace SymbolAtlas.Python

/-! ## What constructs exclude -/

/-- Whether a part of a parameter is read: its annotation or its default. -/
def Tree.isReadPart (parameter part : Tree) : Bool :=
  match parameter.kind with
  | .defaultParameter => part.field == some .value
  | .typedParameter => part.field == some .type
  | .typedDefaultParameter => part.field == some .type || part.field == some .value
  | _ => false

inductive IsTarget (n : Tree) : Tree → Prop
  | name : IsTarget n n
  | part {t u : Tree} (hkind : Role.isContainer t.kind = true ∨ t.kind = .asPatternTarget)
      (hu : u ∈ t.children) (h : IsTarget n u) : IsTarget n t

/-- The construct excludes the name from the references, by the place at which it has the name. -/
inductive Excludes (n : Tree) : Tree → Prop
  /-- The name of a function or a class. -/
  | definition {c : Tree} (hkind : c.kind = .functionDefinition ∨ c.kind = .classDefinition)
      (hn : n ∈ c.children) (hfield : n.field = some .name) : Excludes n c
  /-- A name in the list of type parameters of a function or a class. -/
  | typeParameter {c u : Tree} (hkind : c.kind = .functionDefinition ∨ c.kind = .classDefinition)
      (hu : u ∈ c.children) (hfield : u.field = some .typeParameters) (hn : n ∈ u.names) :
      Excludes n c
  /-- A name in a list of parameters that stands in no annotation and in no default. -/
  | parameter {c ps : Tree} (hkind : c.kind = .functionDefinition ∨ c.kind = .lambda)
      (hps : ps ∈ c.children) (hfield : ps.field = some .parameters) (hn : n ∈ ps.names)
      (hread : ∀ p ∈ ps.children, ∀ part ∈ p.children, p.isReadPart part = true → n ∉ part.names) :
      Excludes n c
  /-- A target of an assignment or a loop. -/
  | target {c t : Tree} (hkind : c.kind = .assignment ∨ c.kind = .augmentedAssignment ∨
      c.kind = .forStatement ∨ c.kind = .forInClause)
      (ht : t ∈ c.children) (hfield : t.field = some .left) (h : IsTarget n t) : Excludes n c
  /-- What `as` gives a name to. -/
  | renamed {c t : Tree} (hkind : c.kind = .asPattern) (ht : t ∈ c.namedChildren.tail)
      (h : IsTarget n t) : Excludes n c
  /-- The target of a named expression, or the name of an argument. -/
  | named {c : Tree} (hkind : c.kind = .namedExpression ∨ c.kind = .keywordArgument)
      (hn : n ∈ c.children) (hfield : n.field = some .name) : Excludes n c
  /-- The name of an attribute. -/
  | attribute {c : Tree} (hkind : c.kind = .attribute) (hn : n ∈ c.children)
      (hfield : n.field = some .attribute) : Excludes n c
  /-- A name in an import, or in a `global` or `nonlocal` statement. -/
  | statement {c : Tree} (hkind : Role.onlyBinds c.kind = true) (hn : n ∈ c.names) : Excludes n c

/-- What a node in a role leaves to the construct around it: the names that it binds as a target,
and those that a list of parameters has outside of annotations and defaults. -/
def Role.Leaves (n : Tree) : Role → Tree → Prop
  | .read, _ => False
  | .bound, t => IsTarget n t
  | .parameters, t =>
    ∀ p ∈ t.children, ∀ part ∈ p.children, p.isReadPart part = true → n ∉ part.names
  | .parameter, t => ∀ part ∈ t.children, t.isReadPart part = true → n ∉ part.names
  | .ignored, _ => True

/-! ## Roles of parts -/

section Roles

variable {ts : List Tree} {t u n : Tree} {role role' : Role} {r : Reference}

theorem mem_namesOf : n ∈ namesOf ts ↔ ∃ t ∈ ts, n ∈ t.names := by
  simp only [namesOf, List.mem_filter, mem_nodesOf, Tree.names]
  grind

theorem mem_zip_map (f : Tree → Role) (hu : u ∈ ts) : (f u, u) ∈ (ts.map f).zip ts := by
  induction ts with
  | nil => cases hu
  | cons t ts ih =>
    rcases List.mem_cons.mp hu with rfl | hu
    · exact List.mem_cons_self
    · exact List.mem_cons_of_mem _ (ih hu)

theorem mem_tail_of_mem_filter_tail {isPart : Tree → Bool} (h : u ∈ (ts.filter isPart).tail) :
    u ∈ ts.tail := by
  cases ts with
  | nil => exact h
  | cons t ts =>
    rw [List.filter_cons] at h
    split at h
    · exact (List.mem_filter.mp h).1
    · exact (List.mem_filter.mp (List.mem_of_mem_tail h)).1

theorem Renames.of_mem_tail (h : Renames ts) (hu : u ∈ ts.tail) :
    u.kind = .identifier ∨ u.Plays [.rename] none := by
  cases ts with
  | nil => cases hu
  | cons t ts => exact h.2.1 u hu

/-- Only the first part of a renaming is read; the later ones have their roles by field. -/
theorem firstNamed_zip {f : Tree → Role} (hu : u ∈ ts) (hnamed : u.isNamed = true) :
    (.read, u) ∈ (List.zipWith Role.orField (Role.firstNamed .read ts) (ts.map f)).zip ts ∨
      u ∈ (ts.filter Tree.isNamed).tail ∧
        (f u, u) ∈ (List.zipWith Role.orField (Role.firstNamed .read ts) (ts.map f)).zip ts := by
  induction ts with
  | nil => cases hu
  | cons t ts ih =>
    rw [Role.firstNamed]
    split
    · rename_i ht
      rw [List.filter_cons_of_pos ht, List.tail_cons]
      rcases List.mem_cons.mp hu with rfl | hu
      · exact .inl List.mem_cons_self
      · refine .inr ⟨List.mem_filter.mpr ⟨hu, hnamed⟩, List.mem_cons_of_mem _ ?_⟩
        rw [zipWith_orField_ignored]
        exact mem_zip_map f hu
    · rename_i ht
      rw [List.filter_cons_of_neg ht]
      rcases List.mem_cons.mp hu with rfl | hu
      · exact absurd hnamed ht
      · exact (ih hu).imp (List.mem_cons_of_mem _) (And.imp_right (List.mem_cons_of_mem _))

/-- In a loop the names stand in what it binds, and in what is read after it. -/
theorem Leads.zip (h : Leads ts) (hu : u ∈ ts) :
    u.IsNameless ∨ u.field = some .left ∧ (.bound, u) ∈ (Role.aroundLeft ts).zip ts ∨
      (.read, u) ∈ (Role.aroundLeft ts).zip ts := by
  induction ts with
  | nil => cases hu
  | cons t ts ih =>
    rw [Role.aroundLeft]
    split
    · rename_i hleft
      rcases List.mem_cons.mp hu with rfl | hu
      · exact .inr (.inl ⟨hleft, List.mem_cons_self⟩)
      · exact .inr (.inr (List.mem_cons_of_mem _ (mem_zip_map (fun _ => .read) hu)))
    · rename_i hleft
      obtain hleft' | ⟨ht, h⟩ := h
      · exact absurd hleft'.1 hleft
      rcases List.mem_cons.mp hu with rfl | hu
      · exact .inl ht
      · exact (ih h hu).imp_right
          (.imp (And.imp_right (List.mem_cons_of_mem _)) (List.mem_cons_of_mem _))

theorem mem_readInAll {roles : List Role} (h : (role, u) ∈ roles.zip ts) (hr : r ∈ u.readIn role) :
    r ∈ readInAll roles ts := by
  rw [readInAll_eq_flatMap]
  exact List.mem_flatMap.mpr ⟨(role, u), h, hr⟩

/-- What a part reads in its role, the whole reads. -/
theorem Tree.mem_readIn (hkind : t.kind ≠ .identifier)
    (hu : (role', u) ∈ (role.ofChildren t.kind t.children).zip t.children)
    (hr : r ∈ u.readIn role') : r ∈ t.readIn role := by
  obtain ⟨kind, field, start, stop, children⟩ := t
  rw [readIn, if_neg hkind]
  exact mem_readInAll hu hr

/-! ## Names that are not read -/

namespace Tree

variable {source : List Char}

theorem IsFaithful.eq_of_mem_names (h : t.IsFaithful source) (hkind : t.kind = .identifier)
    (hn : n ∈ t.names) : n = t := by
  rw [names_of_name hkind, h.hasParts.token (.inl hkind)] at hn
  exact List.mem_singleton.mp hn

theorem IsNameless.not_mem_names (h : t.IsNameless) : n ∉ t.names := by
  rw [h.names_eq]
  exact List.not_mem_nil

theorem IsFaithful.isNamed (h : t.IsFaithful source) (hn : n ∈ t.names) : t.isNamed = true := by
  by_contra hmark
  exact (h.isNameless_of_mark (by simpa [Tree.isNamed] using hmark)).not_mem_names hn

/-- A part with a name in it plays one of the roles, or is the name. -/
theorem Plays.cases {fields : List Field} {own : Option Field} (h : u.Plays fields own)
    (hu : u.IsFaithful source) (hn : n ∈ u.names) :
    (∃ f ∈ u.field, f ∈ fields) ∨ n = u ∧ ∃ f ∈ u.field, own = some f := by
  rcases h with h | h | ⟨hkind, h⟩
  · exact absurd hn h.not_mem_names
  · exact .inl h
  · exact .inr ⟨hu.eq_of_mem_names hkind hn, h⟩

/-- A part with the name in it has a role in which it leaves the name to the construct only if the
construct excludes it. -/
def Sorts (t : Tree) (n u : Tree) (roles : List Role) : Prop :=
  ∃ role, (role, u) ∈ roles.zip t.children ∧ (role.Leaves n u → Excludes n t)

/-- In a construct whose parts have their roles by field, each field is read or is excluded. -/
theorem sorts_byField {roles : List (Field × Role)} {fields : List Field} {own : Option Field}
    (hu : u ∈ t.children) (hfaithful : u.IsFaithful source) (hn : n ∈ u.names)
    (hparts : AllPlay fields own t.children)
    (hfields : ∀ f ∈ fields, u.field = some f →
      ((List.lookup f roles).getD .ignored).Leaves n u → Excludes n t)
    (hown : ∀ f, own = some f → n ∈ t.children → n.field = some f → Excludes n t) :
    t.Sorts n u (Role.byField roles t.children) := by
  refine ⟨_, mem_zip_map _ hu, ?_⟩
  rcases (hparts u hu).cases hfaithful hn with ⟨f, hf, hmem⟩ | ⟨rfl, f, hf, hf'⟩
  · rw [ofField_of_eq hf]
    exact hfields f hmem hf
  · exact fun _ => hown f hf' hu hf

section Constructs

variable (h : t.IsFaithful source) (hu : u ∈ t.children) (hn : n ∈ u.names)

include h hu hn

theorem IsFaithful.sorts_attribute (hkind : t.kind = .attribute) :
    t.Sorts n u (Role.byField [(.object, .read)] t.children) := by
  refine sorts_byField hu (h.children u hu) hn (h.hasParts.attributes hkind) ?_ ?_
  · rintro f hf -
    obtain rfl := List.mem_singleton.mp hf
    exact False.elim
  · rintro f hf hn hfield
    cases hf
    exact .attribute hkind hn hfield

theorem IsFaithful.sorts_named (hkind : t.kind = .namedExpression ∨ t.kind = .keywordArgument) :
    t.Sorts n u (Role.byField [(.value, .read)] t.children) := by
  refine sorts_byField hu (h.children u hu) hn (h.hasParts.valueOfName hkind.symm) ?_ ?_
  · rintro f hf -
    obtain rfl := List.mem_singleton.mp hf
    exact False.elim
  · rintro f hf hn hfield
    cases hf
    exact .named hkind hn hfield

theorem IsFaithful.sorts_function (hkind : t.kind = .functionDefinition) :
    t.Sorts n u (Role.byField
      [(.parameters, .parameters), (.returnType, .read), (.body, .read)] t.children) := by
  refine sorts_byField hu (h.children u hu) hn (h.hasParts.function hkind) ?_ ?_
  · intro f hf hfield
    fin_cases hf
    · exact fun _ => .typeParameter (.inl hkind) hu hfield hn
    · exact .parameter (.inl hkind) hu hfield hn
    · exact False.elim
    · exact False.elim
  · rintro f hf hn hfield
    cases hf
    exact .definition (.inl hkind) hn hfield

theorem IsFaithful.sorts_lambda (hkind : t.kind = .lambda) :
    t.Sorts n u (Role.byField [(.parameters, .parameters), (.body, .read)] t.children) := by
  refine sorts_byField hu (h.children u hu) hn (h.hasParts.lambda hkind) ?_ ?_
  · intro f hf hfield
    fin_cases hf
    · exact .parameter (.inr hkind) hu hfield hn
    · exact False.elim
  · rintro f hf
    cases hf

theorem IsFaithful.sorts_class (hkind : t.kind = .classDefinition) :
    t.Sorts n u (Role.byField [(.superclasses, .read), (.body, .read)] t.children) := by
  refine sorts_byField hu (h.children u hu) hn (h.hasParts.classDefinition hkind) ?_ ?_
  · intro f hf hfield
    fin_cases hf
    · exact fun _ => .typeParameter (.inr hkind) hu hfield hn
    · exact False.elim
    · exact False.elim
  · rintro f hf hn hfield
    cases hf
    exact .definition (.inr hkind) hn hfield

theorem IsFaithful.sorts_assignment
    (hkind : t.kind = .assignment ∨ t.kind = .augmentedAssignment) :
    t.Sorts n u (Role.byField [(.left, .bound), (.type, .read), (.right, .read)] t.children) := by
  refine sorts_byField hu (h.children u hu) hn (h.hasParts.assignment hkind) ?_ ?_
  · intro f hf hfield
    fin_cases hf
    · exact .target (hkind.imp_right .inl) hu hfield
    · exact False.elim
    · exact False.elim
  · rintro f hf
    cases hf

theorem IsFaithful.sorts_loop (hkind : t.kind = .forStatement ∨ t.kind = .forInClause) :
    t.Sorts n u (Role.aroundLeft t.children) := by
  rcases (h.hasParts.loop hkind).zip hu with hnone | ⟨hfield, hzip⟩ | hzip
  · exact absurd hn hnone.not_mem_names
  · exact ⟨_, hzip, .target (.inr (.inr hkind)) hu hfield⟩
  · exact ⟨_, hzip, False.elim⟩

theorem IsFaithful.sorts_asPattern (hkind : t.kind = .asPattern) :
    t.Sorts n u (List.zipWith Role.orField (Role.firstNamed .read t.children)
      (Role.byField [(.rename, .bound)] t.children)) := by
  have hfaithful := h.children u hu
  rcases firstNamed_zip hu (hfaithful.isNamed hn) with hzip | ⟨hlater, hzip⟩
  · exact ⟨_, hzip, False.elim⟩
  · refine ⟨_, hzip, fun hleaves => .renamed hkind hlater ?_⟩
    rcases (h.hasParts.asPattern hkind).of_mem_tail (mem_tail_of_mem_filter_tail hlater) with
      hname | hplays
    · rw [hfaithful.eq_of_mem_names hname hn]
      exact .name
    · rcases hplays.cases hfaithful hn with ⟨f, hf, hmem⟩ | ⟨-, f, -, hf⟩
      · obtain rfl := List.mem_singleton.mp hmem
        rw [ofField_of_eq hf] at hleaves
        exact hleaves
      · cases hf

end Constructs

/-- A node that is read leaves no name in its parts unread but those that it excludes. -/
theorem IsFaithful.sorts_whereRead (h : t.IsFaithful source) (hu : u ∈ t.children)
    (hn : n ∈ u.names) : t.Sorts n u (Role.whereRead t.kind t.children) := by
  unfold Role.whereRead
  split
  case h_1 hkind => exact h.sorts_attribute hu hn hkind
  case h_2 hkind => exact h.sorts_named hu hn (.inr hkind)
  case h_3 hkind => exact h.sorts_named hu hn (.inl hkind)
  case h_4 hkind => exact h.sorts_function hu hn hkind
  case h_5 hkind => exact h.sorts_lambda hu hn hkind
  case h_6 hkind => exact h.sorts_class hu hn hkind
  case h_7 hkind => exact h.sorts_assignment hu hn (.inl hkind)
  case h_8 hkind => exact h.sorts_assignment hu hn (.inr hkind)
  case h_9 hkind => exact h.sorts_loop hu hn (.inl hkind)
  case h_10 hkind => exact h.sorts_loop hu hn (.inr hkind)
  case h_11 hkind => exact h.sorts_asPattern hu hn hkind
  case h_12 =>
    refine ⟨_, mem_zip_map _ hu, ?_⟩
    split
    · rename_i hkind
      have hname : t.kind ≠ .identifier := fun heq => by
        rw [heq] at hkind
        cases hkind
      refine fun _ => .statement hkind ?_
      rw [names_of_kind hname, mem_namesOf]
      exact ⟨u, hu, hn⟩
    · exact False.elim

/-- The name is read in the node in its role, or a construct in the node excludes it. -/
def AccountsFor (role : Role) (t n : Tree) : Prop :=
  n.reference ∈ t.readIn role ∨ ∃ c ∈ t.nodes, Excludes n c

theorem AccountsFor.of_part (hkind : t.kind ≠ .identifier)
    (hu : (role', u) ∈ (role.ofChildren t.kind t.children).zip t.children)
    (h : u.AccountsFor role' n) : t.AccountsFor role n := by
  rcases h with hread | ⟨c, hc, hexcludes⟩
  · exact .inl (mem_readIn hkind hu hread)
  · refine .inr ⟨c, ?_, hexcludes⟩
    obtain ⟨kind, field, start, stop, children⟩ := t
    exact List.mem_cons_of_mem _ (mem_nodesOf.mpr ⟨u, (List.of_mem_zip hu).2, hc⟩)

theorem AccountsFor.of_excludes (h : Excludes n t) : t.AccountsFor role n := by
  obtain ⟨kind, field, start, stop, children⟩ := t
  exact .inr ⟨_, List.mem_cons_self, h⟩

/-- Where a list of targets is bound, so is the part of it that has a name. -/
theorem IsFaithful.bound_zip (h : t.IsFaithful source)
    (hlist : Role.isContainer t.kind = true ∨ t.kind = .asPatternTarget) (hu : u ∈ t.children)
    (hn : n ∈ u.names) :
    (.bound, u) ∈ (Role.ofChildren .bound t.kind t.children).zip t.children := by
  rw [Role.ofChildren]
  split
  · exact mem_zip_map _ hu
  · rename_i hcontainer
    have htarget := hlist.resolve_left hcontainer
    have hnameless := h.hasParts.asPatternTarget htarget
    have hnamed := (h.children u hu).isNamed hn
    rw [if_pos htarget]
    generalize t.children = children at hu hnameless
    cases children with
    | nil => cases hu
    | cons first rest =>
      rcases List.mem_cons.mp hu with rfl | hu
      · rw [Role.firstNamed, if_pos hnamed]
        exact List.mem_cons_self
      · exact absurd hn (hnameless u hu).not_mem_names

theorem read_zip (hu : u ∈ t.children) (h : t.isReadPart u = true) :
    (.read, u) ∈ (Role.ofChildren .parameter t.kind t.children).zip t.children := by
  have hzip {roles : List (Field × Role)} {f : Field} (hfield : u.field = some f)
      (hrole : List.lookup f roles = some .read) :
      (.read, u) ∈ (Role.byField roles t.children).zip t.children := by
    have hzip := mem_zip_map (Role.ofField roles) hu
    rwa [ofField_of_eq hfield, hrole] at hzip
  unfold isReadPart at h
  split at h
  case h_1 hkind =>
    rw [hkind]
    exact hzip (beq_iff_eq.mp h) rfl
  case h_2 hkind =>
    rw [hkind]
    exact hzip (beq_iff_eq.mp h) rfl
  case h_3 hkind =>
    rw [hkind]
    rcases Bool.or_eq_true_iff.mp h with h | h
    · exact hzip (beq_iff_eq.mp h) rfl
    · exact hzip (beq_iff_eq.mp h) rfl
  case h_4 => cases h

theorem ne_identifier_of_isReadPart (h : t.isReadPart u = true) : t.kind ≠ .identifier := by
  intro hkind
  rw [isReadPart, hkind] at h
  cases h

/-- A name is read in any role but that of a target, and as a target it is left to what binds it. -/
theorem accountsFor_name (hkind : t.kind = .identifier) (hnil : t.children = []) (role : Role) :
    t.AccountsFor role t ∨ role.Leaves t t := by
  cases role with
  | read =>
    refine .inl (.inl ?_)
    obtain ⟨kind, field, start, stop, children⟩ := t
    rw [readIn, if_pos hkind, if_pos rfl]
    exact List.mem_singleton_self _
  | bound => exact .inr .name
  | parameters =>
    refine .inr fun p hp => ?_
    rw [hnil] at hp
    cases hp
  | parameter =>
    refine .inr fun part hpart => ?_
    rw [hnil] at hpart
    cases hpart
  | ignored => exact .inr trivial

/-- In a list of parameters a name stands in the part of a parameter that is read, or is left. -/
theorem accountsFor_parameters (hkind : t.kind ≠ .identifier)
    (hparts : ∀ p ∈ t.children, n ∈ p.names →
      p.AccountsFor .parameter n ∨ Role.parameter.Leaves n p) :
    t.AccountsFor .parameters n ∨ Role.parameters.Leaves n t := by
  by_cases hpart : ∃ p ∈ t.children, ∃ part ∈ p.children,
      p.isReadPart part = true ∧ n ∈ part.names
  · obtain ⟨p, hp, part, hpart, hisRead, hn⟩ := hpart
    have hnp : n ∈ p.names := by
      rw [names_of_kind (ne_identifier_of_isReadPart hisRead)]
      exact mem_namesOf.mpr ⟨part, hpart, hn⟩
    refine .inl ((hparts p hp hnp).resolve_right ?_ |>.of_part hkind (mem_zip_map _ hp))
    exact fun hleaves => hleaves part hpart hisRead hn
  · exact .inr fun p hp part hpart' hisRead hn => hpart ⟨p, hp, part, hpart', hisRead, hn⟩

theorem accountsFor_parameter (hkind : t.kind ≠ .identifier)
    (hparts : ∀ part ∈ t.children, n ∈ part.names →
      part.AccountsFor .read n ∨ Role.read.Leaves n part) :
    t.AccountsFor .parameter n ∨ Role.parameter.Leaves n t := by
  by_cases hpart : ∃ part ∈ t.children, t.isReadPart part = true ∧ n ∈ part.names
  · obtain ⟨part, hpart, hisRead, hn⟩ := hpart
    have hwhole := (hparts part hpart hn).resolve_right id
    exact .inl (hwhole.of_part hkind (read_zip hpart hisRead))
  · exact .inr fun part hpart' hisRead hn => hpart ⟨part, hpart', hisRead, hn⟩

/-- A name in a node is read, or excluded in the node, or left to the construct around it.

The recursion follows the parts of the node. In a list of parameters it goes into the part that is
read, if the name stands in one; elsewhere into the part with the name. -/
theorem IsFaithful.accountsFor {t : Tree} (h : t.IsFaithful source) (role : Role)
    (hn : n ∈ t.names) : t.AccountsFor role n ∨ role.Leaves n t := by
  by_cases hkind : t.kind = .identifier
  · rw [h.eq_of_mem_names hkind hn]
    exact accountsFor_name hkind (h.hasParts.token (.inl hkind)) role
  rw [names_of_kind hkind] at hn
  obtain ⟨u, hu, hnu⟩ := mem_namesOf.mp hn
  have hread (hrole : role.ofChildren t.kind t.children =
      Role.whereRead t.kind t.children) : t.AccountsFor role n := by
    obtain ⟨role', hzip, hleaves⟩ := h.sorts_whereRead hu hnu
    rcases (h.children u hu).accountsFor role' hnu with haccounts | hleft
    · exact haccounts.of_part hkind (hrole ▸ hzip)
    · exact .of_excludes (hleaves hleft)
  cases role with
  | read => exact .inl (hread rfl)
  | bound =>
    by_cases hlist : Role.isContainer t.kind = true ∨ t.kind = .asPatternTarget
    · exact ((h.children u hu).accountsFor .bound hnu).imp
        (.of_part hkind (h.bound_zip hlist hu hnu)) (.part hlist hu)
    · obtain ⟨hcontainer, htarget⟩ := not_or.mp hlist
      refine .inl (hread ?_)
      rw [Role.ofChildren, if_neg hcontainer, if_neg htarget]
  | parameters =>
    exact accountsFor_parameters hkind fun p hp => (h.children p hp).accountsFor .parameter
  | parameter =>
    exact accountsFor_parameter hkind fun part hpart => (h.children part hpart).accountsFor .read
  | ignored => exact .inr trivial
termination_by sizeOf t
decreasing_by
  all_goals exact sizeOf_lt_of_mem_children ‹_›

/-- A name in a tree is one of its references, unless a construct of the tree excludes it. -/
theorem IsFaithful.mem_references_or (h : t.IsFaithful source) (hn : n ∈ t.names) :
    n.reference ∈ t.references ∨ ∃ c ∈ t.nodes, Excludes n c := by
  rw [h.references_eq]
  exact (h.accountsFor .read hn).resolve_right id

end Tree

end Roles

/-- A name in the tree of a source is one of its references, unless a construct of the tree
excludes it. -/
theorem isReference_or_excluded {content : String} {tree : Tree}
    (htree : syntaxTree content = .ok tree) :
    ∀ n ∈ tree.nodes, n.kind = .identifier →
      n.reference ∈ tree.references ∨ ∃ c ∈ tree.nodes, Excludes n c := fun _ hn hkind =>
  (syntaxTree_reads htree).1.mem_references_or (Tree.mem_names.mpr ⟨hn, hkind⟩)

/-- Decorators, annotations, defaults, subscripts in targets and the expressions in strings are
read; of the names of this source only those of the function and its parameter are not. -/
theorem isReference_or_excluded_inFunction :
    ∃ tree, syntaxTree "@d\ndef f(p: A = v):\n    x[i] = f\"\x7be\x7d\"" = .ok tree ∧
      tree.references = [⟨"d", ⟨1, 2⟩⟩, ⟨"A", ⟨2, 10⟩⟩, ⟨"v", ⟨2, 14⟩⟩, ⟨"x", ⟨3, 5⟩⟩,
        ⟨"i", ⟨3, 7⟩⟩, ⟨"e", ⟨3, 15⟩⟩] ∧
      tree.names.map Tree.text = ["d", "f", "p", "A", "v", "x", "i", "e"] ∧
      ∀ n ∈ tree.nodes, n.kind = .identifier →
        n.reference ∈ tree.references ∨ ∃ c ∈ tree.nodes, Excludes n c := by
  obtain ⟨tree, htree, hread, hnames⟩ :=
    @exists_syntaxTree "@d\ndef f(p: A = v):\n    x[i] = f\"\x7be\x7d\""
      (fun tree => tree.references = [⟨"d", ⟨1, 2⟩⟩, ⟨"A", ⟨2, 10⟩⟩, ⟨"v", ⟨2, 14⟩⟩, ⟨"x", ⟨3, 5⟩⟩,
        ⟨"i", ⟨3, 7⟩⟩, ⟨"e", ⟨3, 15⟩⟩] ∧
        tree.names.map Tree.text = ["d", "f", "p", "A", "v", "x", "i", "e"]) _ (by decide +kernel)
  exact ⟨tree, htree, hread, hnames, isReference_or_excluded htree⟩

/-- Three names are not read that are neither defined nor parameters, and are not named by an
assignment, a loop, `with`, `except`, `:=`, an argument, an attribute, an import or a declaration
of scope: the name of a matched value, the bound of a type variable, and an index in a parameter. -/
theorem exists_names_unread :
    (∃ tree, syntaxTree "match x:\n    case 1 as y:\n        pass" = .ok tree ∧
      (∃ n ∈ tree.names, n.text = "y" ∧ n.reference ∉ tree.references) ∧
      ∀ c ∈ tree.nodes, c.kind ∉ [.functionDefinition, .classDefinition, .lambda, .assignment,
        .augmentedAssignment, .forStatement, .forInClause, .withStatement, .exceptClause,
        .exceptGroupClause, .namedExpression, .keywordArgument, .attribute, .plainImport,
        .fromImport, .futureImport, .globalStatement, .nonlocalStatement]) ∧
    (∃ tree, syntaxTree "def f[T: B]():\n    pass" = .ok tree ∧
      ∃ c ∈ tree.nodes, c.kind = .constrainedType ∧
        ∃ bound ∈ c.children.drop 2, ∃ n ∈ bound.names, n.text = "B" ∧
          n.reference ∉ tree.references) ∧
    (∃ tree, syntaxTree "def f(*a[i]):\n    pass" = .ok tree ∧
      ∃ c ∈ tree.nodes, c.kind = .subscript ∧
        ∃ n ∈ c.children, n.field = some .subscript ∧ n.text = "i" ∧
          n.reference ∉ tree.references) := by
  refine ⟨exists_syntaxTree ?_, exists_syntaxTree ?_, exists_syntaxTree ?_⟩
  all_goals decide +kernel

end SymbolAtlas.Python
