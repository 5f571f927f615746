import SymbolAtlas.Declaration
import SymbolAtlas.Python.Tree

/-! # References in a syntax tree

A name is a reference where it is read. Definition names, parameters, attributes, the names of
keyword arguments and imported names are not, and neither are the names that an assignment, a loop,
`with` or `except` binds; but what such a target is reached through is read.

A node sends the visit on to some of its parts, in an order of its own, and tells each what it is
visited as. A clause `except` sends it to all of them: a name that it gives to what it catches
stands in an `asPattern`, since an expression goes on at the word `as`, so the word is never a part
of the clause itself.
-/

namespace SymbolAtlas.Python

/-- What a node is to the names in it. -/
inductive Role where
  | read
  | bound
  | parameters
  | parameter
  | ignored
  deriving DecidableEq, Repr

namespace Role

def onlyBinds (kind : Kind) : Bool :=
  [.plainImport, .fromImport, .futureImport, .globalStatement, .nonlocalStatement].contains kind

/-- Whether the parts of a bound node are bound in turn. -/
def isContainer (kind : Kind) : Bool :=
  [.patternList, .tuplePattern, .listPattern, .tuple, .list, .listSplatPattern,
    .parenthesized].contains kind

end Role

namespace Tree

/-- The parts that play some named roles, in the order of these roles. -/
def partsByField (t : Tree) (roles : List (Field × Role)) : List (Role × Tree) :=
  roles.flatMap fun (field, role) => (t.child? field).toList.map (role, ·)

/-- The parts that stand behind the one on the left, or all parts if there is none. -/
def partsAfterLeft (t : Tree) : List Tree :=
  if (t.child? .left).isSome then (t.children.dropWhile (·.field != some .left)).tail
  else t.children

/-- Where a node that is read sends the visit on to. -/
def visitsOfRead (t : Tree) : List (Role × Tree) :=
  match t.kind with
  | .attribute => t.partsByField [(.object, .read)]
  | .keywordArgument | .namedExpression => t.partsByField [(.value, .read)]
  | .functionDefinition =>
    t.partsByField [(.parameters, .parameters), (.returnType, .read), (.body, .read)]
  | .lambda => t.partsByField [(.parameters, .parameters), (.body, .read)]
  | .classDefinition => t.partsByField [(.superclasses, .read), (.body, .read)]
  | .assignment | .augmentedAssignment =>
    t.partsByField [(.left, .bound), (.type, .read), (.right, .read)]
  | .forStatement | .forInClause =>
    t.partsByField [(.left, .bound)] ++ (t.partsAfterLeft.filter isNamed).map (.read, ·)
  | .asPattern =>
    t.firstNamed?.toList.map (.read, ·) ++ t.partsByField [(.rename, .bound)]
  | kind => if Role.onlyBinds kind then [] else t.namedChildren.map (.read, ·)

def visits (role : Role) (t : Tree) : List (Role × Tree) :=
  match role with
  | .read => t.visitsOfRead
  | .bound =>
    if Role.isContainer t.kind then t.namedChildren.map (.bound, ·)
    else if t.kind = .asPatternTarget then t.firstNamed?.toList.map (.bound, ·)
    else t.visitsOfRead
  | .parameters => t.namedChildren.map (.parameter, ·)
  | .parameter =>
    match t.kind with
    | .defaultParameter => t.partsByField [(.value, .read)]
    | .typedParameter => t.partsByField [(.type, .read)]
    | .typedDefaultParameter => t.partsByField [(.type, .read), (.value, .read)]
    | _ => []
  | .ignored => []

/-! ## The visit

Every part that is visited is a child, so the visit ends.
-/

variable {role : Role} {t u : Tree}

theorem sizeOf_lt_of_mem_children (hu : u ∈ t.children) : sizeOf u < sizeOf t := by
  obtain ⟨kind, field, start, stop, children⟩ := t
  have hlt : sizeOf u < sizeOf children := List.sizeOf_lt_of_mem hu
  rw [mk.sizeOf_spec]
  omega

theorem mem_children_of_mem_map {ts : List Tree} {role' : Role} (hts : ∀ u ∈ ts, u ∈ t.children)
    (h : (role, u) ∈ ts.map (role', ·)) : u ∈ t.children := by
  obtain ⟨_, hu, heq⟩ := List.mem_map.mp h
  cases heq
  exact hts u hu

theorem mem_children_of_mem_partsByField {roles : List (Field × Role)}
    (h : (role, u) ∈ t.partsByField roles) : u ∈ t.children := by
  obtain ⟨⟨field, _⟩, -, hu⟩ := List.mem_flatMap.mp h
  exact mem_children_of_mem_map (fun u hu => List.mem_of_find?_eq_some (Option.mem_toList.mp hu)) hu

theorem mem_children_of_mem_firstNamed (hu : u ∈ t.firstNamed?.toList) : u ∈ t.children :=
  List.mem_of_find?_eq_some (Option.mem_toList.mp hu)

theorem mem_children_of_mem_partsAfterLeft (hu : u ∈ t.partsAfterLeft) : u ∈ t.children := by
  unfold partsAfterLeft at hu
  split at hu
  · exact (List.dropWhile_sublist _).subset (List.mem_of_mem_tail hu)
  · exact hu

theorem mem_children_of_mem_visitsOfRead (h : (role, u) ∈ t.visitsOfRead) : u ∈ t.children := by
  unfold visitsOfRead at h
  split at h
  case h_9 | h_10 =>
    rcases List.mem_append.mp h with h | h
    · exact mem_children_of_mem_partsByField h
    · exact mem_children_of_mem_map
        (fun u hu => mem_children_of_mem_partsAfterLeft (List.mem_filter.mp hu).1) h
  case h_11 =>
    rcases List.mem_append.mp h with h | h
    · exact mem_children_of_mem_map (fun u => mem_children_of_mem_firstNamed) h
    · exact mem_children_of_mem_partsByField h
  case h_12 =>
    split at h
    · cases h
    · exact mem_children_of_mem_map (fun u hu => (List.mem_filter.mp hu).1) h
  all_goals exact mem_children_of_mem_partsByField h

theorem mem_children_of_mem_visits {role' : Role} (h : (role, u) ∈ t.visits role') :
    u ∈ t.children := by
  have hnamed {role' : Role} (h : (role, u) ∈ t.namedChildren.map (role', ·)) : u ∈ t.children :=
    mem_children_of_mem_map (fun u hu => (List.mem_filter.mp hu).1) h
  unfold visits at h
  cases role' with
  | read => exact mem_children_of_mem_visitsOfRead h
  | bound =>
    dsimp only at h
    split at h
    · exact hnamed h
    · split at h
      · exact mem_children_of_mem_map (fun u => mem_children_of_mem_firstNamed) h
      · exact mem_children_of_mem_visitsOfRead h
  | parameters => exact hnamed h
  | parameter =>
    dsimp only at h
    split at h
    case h_4 => cases h
    all_goals exact mem_children_of_mem_partsByField h
  | ignored => cases h

/-- The names that a node in a role reads. -/
def visit (role : Role) (t : Tree) : List Reference :=
  if t.kind = .identifier then if role = .read then [⟨t.text, t.position⟩] else []
  else (t.visits role).attach.flatMap fun ⟨(role', u), _⟩ => u.visit role'
termination_by sizeOf t
decreasing_by
  rename_i h
  exact sizeOf_lt_of_mem_children (mem_children_of_mem_visits h)

def references (t : Tree) : List Reference := t.visit .read

end Tree

end SymbolAtlas.Python
