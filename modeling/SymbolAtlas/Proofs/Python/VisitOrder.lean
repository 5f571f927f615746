import Mathlib.Data.List.Basic
import SymbolAtlas.Proofs.Python.WholeWord
import SymbolAtlas.Python.Tree.References

/-! # The order of the visit

A node sends the visit on to its parts in an order of its own. The grammar lets the parts come in
this order and plays each role once at most, so a reading that goes through all parts as they stand
in the tree, each in its role, finds the same references. The names that it finds are therefore some
names of the tree, in the order of the tree.
-/

namespace SymbolAtlas.Python

variable {ts : List Tree} {t u : Tree} {role : Role}

/-! ## Reading a tree from the front to the back -/

namespace Role

/-- The role of a node that plays it by field; in any other field it is ignored. -/
def ofField (roles : List (Field × Role)) (t : Tree) : Role :=
  (t.field.bind fun field => List.lookup field roles).getD .ignored

def byField (roles : List (Field × Role)) (children : List Tree) : List Role :=
  children.map (ofField roles)

/-- The roles of children of which only the first that is more than a mark counts. -/
def firstNamed (role : Role) : List Tree → List Role
  | [] => []
  | t :: ts =>
    if t.isNamed then role :: ts.map fun _ => .ignored else .ignored :: firstNamed role ts

/-- The roles of the children of a loop: what it binds is bound, and what comes after is read. -/
def aroundLeft : List Tree → List Role
  | [] => []
  | t :: ts =>
    if t.field = some .left then .bound :: ts.map fun _ => .read else .ignored :: aroundLeft ts

/-- The role that a part has by its place or, if it is ignored there, by its field. -/
def orField (first renamed : Role) : Role := if first = .ignored then renamed else first

def whereRead (kind : Kind) (children : List Tree) : List Role :=
  match kind with
  | .attribute => byField [(.object, .read)] children
  | .keywordArgument | .namedExpression => byField [(.value, .read)] children
  | .functionDefinition =>
    byField [(.parameters, .parameters), (.returnType, .read), (.body, .read)] children
  | .lambda => byField [(.parameters, .parameters), (.body, .read)] children
  | .classDefinition => byField [(.superclasses, .read), (.body, .read)] children
  | .assignment | .augmentedAssignment =>
    byField [(.left, .bound), (.type, .read), (.right, .read)] children
  | .forStatement | .forInClause => aroundLeft children
  | .asPattern =>
    List.zipWith orField (firstNamed .read children) (byField [(.rename, .bound)] children)
  | _ => children.map fun _ => if onlyBinds kind then .ignored else .read

def ofChildren (role : Role) (kind : Kind) (children : List Tree) : List Role :=
  match role with
  | .read => whereRead kind children
  | .bound =>
    if isContainer kind then children.map fun _ => .bound
    else if kind = .asPatternTarget then firstNamed .bound children
    else whereRead kind children
  | .parameters => children.map fun _ => .parameter
  | .parameter =>
    match kind with
    | .defaultParameter => byField [(.value, .read)] children
    | .typedParameter => byField [(.type, .read)] children
    | .typedDefaultParameter => byField [(.type, .read), (.value, .read)] children
    | _ => children.map fun _ => .ignored
  | .ignored => children.map fun _ => .ignored

end Role

mutual

/-- The names that a node in a role reads, in the order of the tree. -/
def Tree.readIn (role : Role) : Tree → List Reference
  | ⟨kind, field, start, stop, children⟩ =>
    if kind = .identifier then
      if role = .read then
        [⟨Tree.text ⟨kind, field, start, stop, children⟩, start.position⟩]
      else []
    else readInAll (role.ofChildren kind children) children

def readInAll : List Role → List Tree → List Reference
  | role :: roles, t :: ts => t.readIn role ++ readInAll roles ts
  | _, _ => []

end

def Tree.reference (n : Tree) : Reference := ⟨n.text, n.position⟩

theorem readInAll_eq_flatMap (roles : List Role) (ts : List Tree) :
    readInAll roles ts = (roles.zip ts).flatMap fun p => p.2.readIn p.1 := by
  induction roles generalizing ts with
  | nil =>
    rw [readInAll.eq_def]
    rfl
  | cons role roles ih =>
    cases ts with
    | nil =>
      rw [readInAll.eq_def]
      rfl
    | cons t ts => rw [readInAll, ih, List.zip_cons_cons, List.flatMap_cons]

mutual

/-- A node reads some of its names, in their order, and none of them twice. -/
theorem Tree.readIn_sublist : ∀ (role : Role) (t : Tree),
    (t.readIn role).Sublist (t.names.map Tree.reference)
  | role, ⟨kind, field, start, stop, children⟩ => by
    rw [Tree.readIn]
    split
    · rename_i hkind
      rw [Tree.names_of_name hkind]
      split
      · exact List.Sublist.cons_cons _ (List.nil_sublist _)
      · exact List.nil_sublist _
    · rename_i hkind
      rw [Tree.names_of_kind hkind]
      exact readInAll_sublist _ children

theorem readInAll_sublist : ∀ (roles : List Role) (ts : List Tree),
    (readInAll roles ts).Sublist ((namesOf ts).map Tree.reference)
  | [], _ => by
    rw [readInAll.eq_def]
    exact List.nil_sublist _
  | _ :: _, [] => by
    rw [readInAll.eq_def]
    exact List.nil_sublist _
  | role :: roles, t :: ts => by
    rw [readInAll, namesOf_cons, List.map_append]
    exact (t.readIn_sublist role).append (readInAll_sublist roles ts)

end

theorem Tree.IsNameless.readIn_eq (h : t.IsNameless) : t.readIn role = [] := by
  have hsub := Tree.readIn_sublist role t
  rwa [h.names_eq, List.map_nil, List.sublist_nil] at hsub

/-- Nodes that are neither read nor bound have no references. -/
theorem readIn_ignored (t : Tree) : t.readIn .ignored = [] := by
  obtain ⟨kind, field, start, stop, children⟩ := t
  rw [Tree.readIn]
  split
  · rfl
  · rw [readInAll_eq_flatMap, List.flatMap_eq_nil_iff]
    intro p hp
    obtain ⟨hrole, hchild⟩ := List.of_mem_zip hp
    obtain ⟨-, -, hignored⟩ := List.mem_map.mp hrole
    rw [← hignored]
    exact readIn_ignored p.2
termination_by sizeOf t
decreasing_by
  exact Tree.sizeOf_lt_of_mem_children hchild

/-! ## Parts in turn -/

section InTurn

variable {field : Field} {lo n : ℕ}

theorem turn_lt (h : field.turn? = some n) : n < 4 := by
  cases field <;> grind

theorem turnAfter_cons (hfield : t.field = some field) :
    turnAfter (t :: ts) lo = turnAfter ts (field.after lo) := by
  rw [turnAfter, List.filterMap_cons_some hfield]
  rfl

/-- Turns only go on. -/
theorem le_turnAfter (hlo : lo ≤ 5) : lo ≤ turnAfter ts lo := by
  induction ts generalizing lo with
  | nil => exact le_rfl
  | cons t ts ih =>
    cases hfield : t.field with
    | none =>
      rw [turnAfter_cons_of_none hfield]
      exact ih hlo
    | some field =>
      rw [turnAfter_cons hfield]
      have hafter : lo ≤ field.after lo ∧ field.after lo ≤ 5 := by
        cases field <;> grind
      exact hafter.1.trans (ih hafter.2)

/-- The parts before one come earlier than it, and the parts after it later. -/
theorem turnAfter_append_cons {before after : List Tree}
    (h : turnAfter (before ++ u :: after) lo < 5) (hfield : u.field = some field)
    (hturn : field.turn? = some n) :
    turnAfter before lo ≤ n ∧
      turnAfter (before ++ u :: after) lo = turnAfter after (n + 1) := by
  rw [turnAfter_append, turnAfter_cons hfield, Field.after, hturn] at h ⊢
  dsimp only at h ⊢
  split at h
  · rename_i hle
    exact ⟨hle, by rw [if_pos hle]⟩
  · exact absurd (@le_turnAfter after _ (le_refl 5)) (by omega)

/-- A part comes at its turn. -/
theorem turn_of_mem (h : turnAfter ts lo < 5) (hlo : lo ≤ 5) (hu : u ∈ ts)
    (hfield : u.field = some field) (hturn : field.turn? = some n) :
    lo ≤ n ∧ n < turnAfter ts lo := by
  obtain ⟨before, after, rfl⟩ := List.append_of_mem hu
  obtain ⟨hle, heq⟩ := turnAfter_append_cons h hfield hturn
  refine ⟨(le_turnAfter hlo).trans hle, ?_⟩
  rw [heq]
  have := turn_lt hturn
  exact le_turnAfter (by omega)

/-- Whether roles come in the order of their turns. -/
def AreInTurn (roles : List (Field × Role)) : Prop :=
  (∀ p ∈ roles, p.1.turn?.isSome = true) ∧
    roles.Pairwise fun p q => p.1.turn?.getD 0 < q.1.turn?.getD 0

instance (roles : List (Field × Role)) : Decidable (AreInTurn roles) :=
  inferInstanceAs (Decidable (_ ∧ _))

variable {roles : List (Field × Role)}

theorem AreInTurn.exists_turn (h : AreInTurn ((field, role) :: roles)) :
    AreInTurn roles ∧ ∃ n, field.turn? = some n ∧
      ∀ p ∈ roles, ∃ k, p.1.turn? = some k ∧ n < k := by
  obtain ⟨hsome, hlt⟩ := h
  obtain ⟨hfield, hsome⟩ := List.forall_mem_cons.mp hsome
  obtain ⟨hfirst, hlt⟩ := List.pairwise_cons.mp hlt
  obtain ⟨n, hturn⟩ := Option.isSome_iff_exists.mp hfield
  refine ⟨⟨hsome, hlt⟩, n, hturn, fun p hp => ?_⟩
  obtain ⟨k, hk⟩ := Option.isSome_iff_exists.mp (hsome p hp)
  exact ⟨k, hk, by simpa [hturn, hk] using hfirst p hp⟩

theorem ofField_of_eq (h : t.field = some field) :
    Role.ofField roles t = (List.lookup field roles).getD .ignored := by
  rw [Role.ofField, h, Option.bind_some]

theorem ofField_of_ne (h : t.field ≠ some field) :
    Role.ofField ((field, role) :: roles) t = Role.ofField roles t := by
  unfold Role.ofField
  cases hfield : t.field with
  | none => rfl
  | some f =>
    have hne : (f == field) = false := beq_eq_false_iff_ne.mpr fun heq => h (by rw [hfield, heq])
    rw [Option.bind_some, Option.bind_some, List.lookup_cons, hne]

theorem ofField_eq_ignored (h : ∀ p ∈ roles, t.field ≠ some p.1) :
    Role.ofField roles t = .ignored := by
  induction roles with
  | nil =>
    unfold Role.ofField
    cases t.field <;> rfl
  | cons p roles ih =>
    obtain ⟨hp, hroles⟩ := List.forall_mem_cons.mp h
    rw [ofField_of_ne hp, ih hroles]

theorem flatMap_ofField_of_ne (h : ∀ t ∈ ts, t.field ≠ some field) :
    (ts.flatMap fun t => t.readIn (Role.ofField ((field, role) :: roles) t)) =
      ts.flatMap fun t => t.readIn (Role.ofField roles t) :=
  List.flatMap_congr fun t ht => by rw [ofField_of_ne (h t ht)]

theorem flatMap_ofField_eq_nil (h : ∀ p ∈ roles, ∀ t ∈ ts, t.field ≠ some p.1) :
    (ts.flatMap fun t => t.readIn (Role.ofField roles t)) = [] := by
  rw [List.flatMap_eq_nil_iff]
  intro t ht
  rw [ofField_eq_ignored fun p hp => h p hp t ht, readIn_ignored]

/-- No part up to one plays a role of a later turn. -/
theorem field_ne_of_turn_lt {before after : List Tree} {f : Field} {k : ℕ}
    (h : turnAfter (before ++ u :: after) lo < 5) (hlo : lo ≤ 5) (hfield : u.field = some field)
    (hturn : field.turn? = some n) (hk : f.turn? = some k) (hlt : n < k) :
    ∀ t ∈ before ++ [u], t.field ≠ some f := by
  intro t ht hf
  rcases List.mem_append.mp ht with ht | ht
  · have hle := (turnAfter_append_cons h hfield hturn).1
    have hn := turn_lt hturn
    have := turn_of_mem (by omega) hlo ht hf hk
    omega
  · obtain rfl := List.mem_singleton.mp ht
    obtain rfl := Option.some.inj (hfield.symm.trans hf)
    obtain rfl := Option.some.inj (hturn.symm.trans hk)
    omega

/-- Parts in turn are visited in the order of the tree if their roles are in turn.

The induction is on the roles: the part that plays the first one stands before all parts that play
the others. -/
theorem flatMap_ofField (hroles : AreInTurn roles) (hts : turnAfter ts lo < 5) (hlo : lo ≤ 5) :
    (ts.flatMap fun t => t.readIn (Role.ofField roles t)) =
      roles.flatMap fun p => (ts.find? (·.field == some p.1)).toList.flatMap (Tree.readIn p.2) := by
  induction roles generalizing ts lo with
  | nil => exact flatMap_ofField_eq_nil fun _ hp => absurd hp List.not_mem_nil
  | cons p roles ih =>
    obtain ⟨field, role⟩ := p
    obtain ⟨hroles, n, hturn, hturns⟩ := hroles.exists_turn
    rw [List.flatMap_cons]
    cases hfind : ts.find? (·.field == some field) with
    | none =>
      have hne : ∀ t ∈ ts, t.field ≠ some field := by simpa using List.find?_eq_none.mp hfind
      rw [flatMap_ofField_of_ne hne, ih hroles hts hlo]
      rfl
    | some u =>
      obtain ⟨hu, before, after, rfl, hbefore⟩ := List.find?_eq_some_iff_append.mp hfind
      have hu : u.field = some field := beq_iff_eq.mp hu
      have hne : ∀ p ∈ roles, ∀ t ∈ before ++ [u], t.field ≠ some p.1 := fun p hp =>
        have ⟨_, hk, hlt⟩ := hturns p hp
        field_ne_of_turn_lt hts hlo hu hturn hk hlt
      have hskip : ∀ p ∈ roles, (before ++ u :: after).find? (·.field == some p.1) =
          after.find? (·.field == some p.1) := fun p hp => by
        rw [List.append_cons, List.find?_append, List.find?_eq_none.mpr, Option.none_or]
        exact fun t ht => by simpa using hne p hp t ht
      have hread : Role.ofField ((field, role) :: roles) u = role := by
        rw [ofField_of_eq hu, List.lookup_cons_self, Option.getD_some]
      have hn := turn_lt hturn
      rw [(turnAfter_append_cons hts hu hturn).2] at hts
      have hafter : ∀ t ∈ after, t.field ≠ some field := fun t ht hfield =>
        absurd (turn_of_mem hts (by omega) ht hfield hturn).1 (by omega)
      rw [List.flatMap_append, flatMap_ofField_of_ne (by simpa using hbefore),
        flatMap_ofField_eq_nil fun p hp t ht => hne p hp t (List.mem_append_left _ ht),
        List.nil_append, List.flatMap_cons, hread, flatMap_ofField_of_ne hafter,
        ih hroles hts (by omega), Option.toList_some, List.flatMap_singleton]
      congr 1
      exact List.flatMap_congr fun p hp => by rw [hskip p hp]

end InTurn

/-! ## The visit in the order of the tree -/

theorem readInAll_map (role : Tree → Role) (ts : List Tree) :
    readInAll (ts.map role) ts = ts.flatMap fun t => t.readIn (role t) := by
  induction ts with
  | nil => rfl
  | cons t ts ih => rw [List.map_cons, readInAll, ih, List.flatMap_cons]

theorem readInAll_ignored : readInAll (ts.map fun _ => .ignored) ts = [] := by
  rw [readInAll_map, List.flatMap_eq_nil_iff]
  exact fun t _ => readIn_ignored t

theorem readInAll_firstNamed (role : Role) (ts : List Tree) :
    readInAll (Role.firstNamed role ts) ts =
      (ts.find? Tree.isNamed).toList.flatMap (Tree.readIn role) := by
  induction ts with
  | nil => rfl
  | cons t ts ih =>
    rw [Role.firstNamed, List.find?_cons]
    split
    · rename_i hnamed
      rw [hnamed, readInAll, readInAll_ignored]
      simp
    · rename_i hmark
      rw [Bool.not_eq_true] at hmark
      rw [hmark, readInAll, readIn_ignored, ih]
      rfl

theorem zipWith_orField_ignored (f : Tree → Role) (ts : List Tree) :
    List.zipWith Role.orField (ts.map fun _ => .ignored) (ts.map f) = ts.map f := by
  rw [List.zipWith_map, List.zipWith_self]
  rfl

theorem flatMap_filter_isNamed (h : ∀ t ∈ ts, t.isNamed = false → t.IsNameless) :
    (ts.filter Tree.isNamed).flatMap (Tree.readIn role) = ts.flatMap (Tree.readIn role) := by
  induction ts with
  | nil => rfl
  | cons t ts ih =>
    obtain ⟨ht, hts⟩ := List.forall_mem_cons.mp h
    rw [List.filter_cons, List.flatMap_cons]
    split
    · rw [List.flatMap_cons, ih hts]
    · rename_i hmark
      rw [(ht (by simpa using hmark)).readIn_eq, ih hts]
      rfl

/-- Before what a loop binds nothing is read. -/
theorem Leads.readInAll_aroundLeft (h : Leads ts) :
    readInAll (Role.aroundLeft ts) ts =
      (ts.find? (·.field == some .left)).toList.flatMap (Tree.readIn .bound) ++
        (if (ts.find? (·.field == some .left)).isSome then
          (ts.dropWhile (·.field != some .left)).tail else ts).flatMap (Tree.readIn .read) := by
  induction ts with
  | nil => rfl
  | cons t ts ih =>
    rw [Role.aroundLeft, List.find?_cons, List.dropWhile_cons]
    by_cases hleft : t.field = some .left
    · rw [if_pos hleft, readInAll, readInAll_map]
      simp [hleft]
    · obtain ⟨hfield, -⟩ | ⟨ht, hts⟩ := h
      · exact absurd hfield hleft
      · have hne : (t.field == some .left) = false := beq_eq_false_iff_ne.mpr hleft
        rw [if_neg hleft, readInAll, readIn_ignored, List.nil_append, ih hts, bne, hne]
        cases hfind : ts.find? (·.field == some .left) with
        | none => simp [ht.readIn_eq]
        | some left => simp

namespace Tree

variable {source : List Char}

theorem flatMap_partsByField {roles : List (Field × Role)} (hroles : AreInTurn roles)
    (h : InTurn t.children) :
    ((t.partsByField roles).flatMap fun p => p.2.readIn p.1) =
      readInAll (Role.byField roles t.children) t.children := by
  rw [Role.byField, readInAll_map, flatMap_ofField hroles h (by omega), partsByField,
    List.flatMap_assoc]
  simp only [List.flatMap_map]
  rfl

theorem flatMap_pair (role : Role) (ts : List Tree) :
    ((ts.map fun t => (role, t)).flatMap fun p => p.2.readIn p.1) =
      ts.flatMap (Tree.readIn role) := List.flatMap_map ..

theorem IsFaithful.isNameless_of_isNamed (h : t.IsFaithful source) (hu : u ∈ t.children)
    (hmark : u.isNamed = false) : u.IsNameless :=
  (h.children u hu).isNameless_of_mark (by simpa [isNamed] using hmark)

theorem IsFaithful.flatMap_namedChildren (h : t.IsFaithful source) (role : Role) :
    t.namedChildren.flatMap (Tree.readIn role) = t.children.flatMap (Tree.readIn role) :=
  flatMap_filter_isNamed fun _ => h.isNameless_of_isNamed

/-- A renaming is visited from what it renames on. -/
theorem IsFaithful.flatMap_asPattern (h : t.IsFaithful source) (hkind : t.kind = .asPattern) :
    ((t.firstNamed?.toList.map (Role.read, ·) ++ t.partsByField [(.rename, .bound)]).flatMap
      fun p => p.2.readIn p.1) =
    readInAll (List.zipWith Role.orField (Role.firstNamed .read t.children)
      (Role.byField [(.rename, .bound)] t.children)) t.children := by
  have hrenames := h.hasParts.asPattern hkind
  have hturn : InTurn t.children := by
    cases hchildren : t.children with
    | nil => exact inTurn_nil
    | cons first rest =>
      rw [hchildren] at hrenames
      rw [InTurn, turnAfter_cons_of_none hrenames.1.2]
      exact hrenames.2.2
  rw [List.flatMap_append, flatMap_pair, flatMap_partsByField (by decide) hturn, firstNamed?]
  generalize t.children = children at hrenames
  cases children with
  | nil => rfl
  | cons first rest =>
    obtain ⟨⟨hmark, hfield⟩, -⟩ := hrenames
    have hnamed : first.isNamed = true := bne_iff_ne.mpr hmark
    have hignored : Role.ofField [(.rename, .bound)] first = .ignored := by
      rw [Role.ofField, hfield]
      rfl
    rw [List.find?_cons, hnamed, Role.firstNamed, if_pos hnamed, Role.byField, List.map_cons,
      hignored, List.zipWith_cons_cons, zipWith_orField_ignored, readInAll, readIn_ignored,
      readInAll]
    simp [Role.orField]

/-- A loop is visited from what it binds on. -/
theorem IsFaithful.flatMap_loop (h : t.IsFaithful source)
    (hkind : t.kind = .forStatement ∨ t.kind = .forInClause) :
    ((t.partsByField [(.left, .bound)] ++
      (t.partsAfterLeft.filter isNamed).map (Role.read, ·)).flatMap fun p => p.2.readIn p.1) =
        readInAll (Role.aroundLeft t.children) t.children := by
  have hmark : ∀ u ∈ t.partsAfterLeft, u.isNamed = false → u.IsNameless := fun u hu =>
    h.isNameless_of_isNamed (mem_children_of_mem_partsAfterLeft hu)
  rw [(h.hasParts.loop hkind).readInAll_aroundLeft, List.flatMap_append, flatMap_pair,
    flatMap_filter_isNamed hmark, partsByField, List.flatMap_singleton, flatMap_pair]
  rfl

theorem IsFaithful.flatMap_visitsOfRead (h : t.IsFaithful source) :
    (t.visitsOfRead.flatMap fun p => p.2.readIn p.1) =
      readInAll (Role.whereRead t.kind t.children) t.children := by
  rw [visitsOfRead]
  split
  case h_9 hkind =>
    rw [hkind]
    exact h.flatMap_loop (.inl hkind)
  case h_10 hkind =>
    rw [hkind]
    exact h.flatMap_loop (.inr hkind)
  case h_11 hkind =>
    rw [hkind]
    exact h.flatMap_asPattern hkind
  case h_12 =>
    rw [Role.whereRead, readInAll_map]
    · split
      · rw [List.flatMap_nil, eq_comm, List.flatMap_eq_nil_iff]
        exact fun u _ => readIn_ignored u
      · rw [flatMap_pair, h.flatMap_namedChildren]
    all_goals assumption
  all_goals
    rename_i hkind
    rw [hkind]
    exact flatMap_partsByField (by decide) (h.hasParts.order (by simp [hkind]))

/-- A node in a role finds what its parts read in theirs. -/
theorem IsFaithful.flatMap_visits (h : t.IsFaithful source) (role : Role) :
    ((t.visits role).flatMap fun p => p.2.readIn p.1) =
      readInAll (role.ofChildren t.kind t.children) t.children := by
  cases role with
  | read => exact h.flatMap_visitsOfRead
  | bound =>
    rw [visits, Role.ofChildren]
    split
    · rw [flatMap_pair, h.flatMap_namedChildren, readInAll_map]
    · split
      · rw [flatMap_pair, readInAll_firstNamed, firstNamed?]
      · exact h.flatMap_visitsOfRead
  | parameters => rw [visits, Role.ofChildren, flatMap_pair, h.flatMap_namedChildren, readInAll_map]
  | parameter =>
    rw [visits]
    split
    case h_4 =>
      rw [Role.ofChildren]
      · exact readInAll_ignored.symm
      all_goals assumption
    all_goals
      rename_i hkind
      rw [hkind]
      exact flatMap_partsByField (by decide) (h.hasParts.order (by simp [hkind]))
  | ignored => exact readInAll_ignored.symm

/-- In a faithful tree the visit finds the references in the order of the tree. -/
theorem IsFaithful.visit_eq {t : Tree} (h : t.IsFaithful source) (role : Role) :
    t.visit role = t.readIn role := by
  have hparts : ((t.visits role).attach.flatMap fun ⟨(role', u), _⟩ => u.visit role') =
      readInAll (role.ofChildren t.kind t.children) t.children := by
    calc (t.visits role).attach.flatMap (fun ⟨(role', u), _⟩ => u.visit role')
      _ = (t.visits role).attach.flatMap fun p => p.1.2.readIn p.1.1 :=
        List.flatMap_congr fun ⟨(role', u), hu⟩ _ =>
          (h.children u (mem_children_of_mem_visits hu)).visit_eq role'
      _ = ((t.visits role).attach.map Subtype.val).flatMap fun p => p.2.readIn p.1 :=
        (List.flatMap_map Subtype.val (fun p : Role × Tree => p.2.readIn p.1) _).symm
      _ = readInAll (role.ofChildren t.kind t.children) t.children := by
        rw [List.attach_map_subtype_val, h.flatMap_visits]
  rw [visit, hparts]
  obtain ⟨kind, field, start, stop, children⟩ := t
  rw [readIn]
  rfl
termination_by sizeOf t
decreasing_by exact sizeOf_lt_of_mem_children (mem_children_of_mem_visits hu)

theorem IsFaithful.references_eq (h : t.IsFaithful source) : t.references = t.readIn .read :=
  h.visit_eq .read

end Tree

end SymbolAtlas.Python
