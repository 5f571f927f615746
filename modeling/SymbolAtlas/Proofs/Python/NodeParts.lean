import Mathlib.Data.ENat.Basic
import SymbolAtlas.Proofs.Python.ModulePath
import SymbolAtlas.Python.Grammar.Target

/-! # Names and parts of nodes

Which roles the parts of a node play, the grammar lays down for each construct. `HasParts` says it
for the constructs of which not every part is read: where the names in them stand. The names of a
tree stand in the order of the tree exactly when `past` finds an offset behind the last of them.
-/

namespace SymbolAtlas.Python

variable {ts us : List Tree} {kind : Kind} {t : Tree}

theorem mem_nodesOf {n : Tree} : n ∈ nodesOf ts ↔ ∃ t ∈ ts, n ∈ t.nodes := by
  induction ts with
  | nil => simp [nodesOf]
  | cons t ts ih => simp [nodesOf, ih]

theorem nodesOf_append : nodesOf (ts ++ us) = nodesOf ts ++ nodesOf us := by
  induction ts with
  | nil => rfl
  | cons t ts ih => rw [List.cons_append, nodesOf, nodesOf, ih, List.append_assoc]

/-! ## Trees without names -/

def Tree.IsNameless (t : Tree) : Prop := ∀ n ∈ t.nodes, n.kind ≠ .identifier

def Nameless (ts : List Tree) : Prop := ∀ t ∈ ts, t.IsNameless

@[grind .]
theorem nameless_nil : Nameless [] := fun _ h => absurd h List.not_mem_nil

@[grind norm]
theorem nameless_cons : Nameless (t :: ts) ↔ t.IsNameless ∧ Nameless ts := List.forall_mem_cons

@[grind norm]
theorem nameless_append : Nameless (ts ++ us) ↔ Nameless ts ∧ Nameless us :=
  List.forall_mem_append

@[grind norm]
theorem nameless_reverse : Nameless ts.reverse ↔ Nameless ts := by
  simp [Nameless]

@[grind norm]
theorem nameless_flatten_cons {chunks : List (List Tree)} :
    Nameless (ts :: chunks).flatten ↔ Nameless ts ∧ Nameless chunks.flatten := by
  rw [List.flatten_cons, nameless_append]

@[grind norm]
theorem nameless_flatten_nil : Nameless ([] : List (List Tree)).flatten := nameless_nil

@[grind norm]
theorem nameless_flatten_reverse {chunks : List (List Tree)} :
    Nameless chunks.reverse.flatten ↔ Nameless chunks.flatten := by
  simp [Nameless]

namespace Tree

theorem isNameless_of_kind (hkind : t.kind ≠ .identifier) :
    t.IsNameless ↔ Nameless t.children := by
  obtain ⟨kind, field, start, stop, children⟩ := t
  simp only [IsNameless, nodes, List.forall_mem_cons, Nameless, mem_nodesOf]
  exact ⟨fun h t ht n hn => h.2 n ⟨t, ht, hn⟩, fun h => ⟨hkind, fun n ⟨t, ht, hn⟩ => h t ht n hn⟩⟩

@[grind norm]
theorem isNameless_mk {field : Option Field} {start stop : Cursor} (hkind : kind ≠ .identifier) :
    (⟨kind, field, start, stop, ts⟩ : Tree).IsNameless ↔ Nameless ts := isNameless_of_kind hkind

@[grind norm]
theorem isNameless_node (hkind : kind ≠ .identifier) :
    (node kind ts).IsNameless ↔ Nameless ts := isNameless_of_kind hkind

@[grind ←]
theorem isNameless_leaf (hkind : kind ≠ .identifier) (start stop : Cursor) :
    (leaf kind start stop).IsNameless := (isNameless_of_kind hkind).mpr nameless_nil

@[grind norm]
theorem isNameless_inField (field : Field) : (t.inField field).IsNameless ↔ t.IsNameless := by
  obtain ⟨kind, _, start, stop, children⟩ := t
  by_cases hkind : kind = .identifier
  · simp [IsNameless, nodes, inField, hkind]
  · rw [isNameless_of_kind hkind, isNameless_of_kind hkind]
    rfl

end Tree

@[grind norm]
theorem nameless_map_inField (field : Field) :
    Nameless (ts.map (.inField field)) ↔ Nameless ts := by
  simp [Nameless, Tree.isNameless_inField]

/-! ## Trees without roles -/

def Unplaced (ts : List Tree) : Prop := ∀ t ∈ ts, t.field = none

@[grind .]
theorem unplaced_nil : Unplaced [] := fun _ h => absurd h List.not_mem_nil

@[grind norm]
theorem unplaced_cons : Unplaced (t :: ts) ↔ t.field = none ∧ Unplaced ts := List.forall_mem_cons

@[grind norm]
theorem unplaced_append : Unplaced (ts ++ us) ↔ Unplaced ts ∧ Unplaced us :=
  List.forall_mem_append

@[grind norm]
theorem unplaced_reverse : Unplaced ts.reverse ↔ Unplaced ts := by
  simp [Unplaced]

@[grind norm]
theorem unplaced_flatten_cons {chunks : List (List Tree)} :
    Unplaced (ts :: chunks).flatten ↔ Unplaced ts ∧ Unplaced chunks.flatten := by
  rw [List.flatten_cons, unplaced_append]

@[grind norm]
theorem unplaced_flatten_nil : Unplaced ([] : List (List Tree)).flatten := unplaced_nil

@[grind norm]
theorem unplaced_flatten_reverse {chunks : List (List Tree)} :
    Unplaced chunks.reverse.flatten ↔ Unplaced chunks.flatten := by
  simp [Unplaced]

@[grind norm]
theorem Tree.node_kind : (node kind ts).kind = kind := rfl

@[grind norm]
theorem Tree.node_field : (node kind ts).field = none := rfl

@[grind norm]
theorem Tree.leaf_field (kind : Kind) (start stop : Cursor) :
    (leaf kind start stop).field = none := rfl

@[grind norm]
theorem Tree.inField_field (field : Field) : (t.inField field).field = some field := rfl

/-- The trees are comments and joining backslashes, in no role. -/
def AllExtra (ts : List Tree) : Prop := ∀ t ∈ ts, t.isExtra = true ∧ t.field = none

theorem allExtra_nil : AllExtra [] := fun _ h => absurd h List.not_mem_nil

theorem AllExtra.concat_leaf (h : AllExtra ts) (start stop : Cursor)
    (hkind : (Tree.leaf kind start stop).isExtra = true) :
    AllExtra (ts ++ [.leaf kind start stop]) :=
  List.forall_mem_append.mpr ⟨h, List.forall_mem_singleton.mpr ⟨hkind, rfl⟩⟩

theorem AllExtra.unplaced (h : AllExtra ts) : Unplaced ts := fun t ht => (h t ht).2

/-! ## The order of names -/

def Tree.names (t : Tree) : List Tree := t.nodes.filter (·.kind == .identifier)

def namesOf (ts : List Tree) : List Tree := (nodesOf ts).filter (·.kind == .identifier)

theorem namesOf_cons : namesOf (t :: ts) = t.names ++ namesOf ts := List.filter_append ..

theorem namesOf_singleton : namesOf [t] = t.names := by
  rw [namesOf_cons]
  exact List.append_nil _

theorem namesOf_append : namesOf (ts ++ us) = namesOf ts ++ namesOf us := by
  rw [namesOf, nodesOf_append, List.filter_append]
  rfl

namespace Tree

theorem mem_names {n : Tree} : n ∈ t.names ↔ n ∈ t.nodes ∧ n.kind = .identifier := by
  rw [names, List.mem_filter, beq_iff_eq]

theorem names_of_kind (hkind : t.kind ≠ .identifier) : t.names = namesOf t.children := by
  obtain ⟨kind, field, start, stop, children⟩ := t
  rw [names, nodes, List.filter_cons_of_neg (by simpa using hkind)]
  rfl

theorem names_of_name (hkind : t.kind = .identifier) : t.names = t :: namesOf t.children := by
  obtain ⟨kind, field, start, stop, children⟩ := t
  rw [names, nodes, List.filter_cons_of_pos (by simpa using hkind)]
  rfl

theorem namesOf_children_sublist (t : Tree) : (namesOf t.children).Sublist t.names := by
  by_cases hkind : t.kind = .identifier
  · rw [names_of_name hkind]
    exact List.sublist_cons_self ..
  · simp only [names_of_kind hkind, List.Sublist.refl]

/-- A part of a node has some of the node's names, in their order. -/
theorem names_sublist_of_part {u : Tree} (hu : u ∈ t.children) : u.names.Sublist t.names := by
  refine List.Sublist.trans ?_ (namesOf_children_sublist t)
  obtain ⟨front, back, hparts⟩ := List.append_of_mem hu
  rw [hparts, namesOf_append, namesOf_cons]
  exact (List.sublist_append_left ..).trans (List.sublist_append_right ..)

theorem IsNameless.names_eq (h : t.IsNameless) : t.names = [] :=
  List.filter_eq_nil_iff.mpr fun n hn => by simpa using h n hn

end Tree

/-- The offset behind a name, if it does not stand before the offset `lo`. -/
def behind (lo : ℕ∞) (name : Tree) : ℕ∞ := if lo ≤ name.start.offset then name.stop.offset else ⊤

/-- The offset behind the names of a tree that stand from `lo` on; `⊤` if they are not in order. -/
def Tree.past (t : Tree) (lo : ℕ∞) : ℕ∞ := t.names.foldl behind lo

def pastAll (ts : List Tree) (lo : ℕ∞) : ℕ∞ := (namesOf ts).foldl behind lo

section Past

variable {lo lo' : ℕ∞}

@[grind norm]
theorem pastAll_nil : pastAll [] lo = lo := rfl

@[grind norm]
theorem pastAll_cons : pastAll (t :: ts) lo = pastAll ts (t.past lo) := by
  rw [pastAll, namesOf_cons, List.foldl_append]
  rfl

theorem pastAll_singleton : pastAll [t] lo = t.past lo := pastAll_cons

theorem pastAll_of_eq_nil (h : ts = []) : pastAll ts lo = lo := by
  rw [h, pastAll_nil]

theorem pastAll_of_eq_singleton (h : ts = [t]) : pastAll ts lo = t.past lo := by
  rw [h, pastAll_singleton]

@[grind norm]
theorem pastAll_append : pastAll (ts ++ us) lo = pastAll us (pastAll ts lo) := by
  rw [pastAll, namesOf_append, List.foldl_append]
  rfl

@[grind norm]
theorem pastAll_flatten_reverse_nil : pastAll ([] : List (List Tree)).reverse.flatten lo = lo := rfl

@[grind norm]
theorem pastAll_flatten_reverse_cons {chunks : List (List Tree)} :
    pastAll (ts :: chunks).reverse.flatten lo = pastAll ts (pastAll chunks.reverse.flatten lo) := by
  rw [List.reverse_cons, List.flatten_append, pastAll_append, List.flatten_singleton]

@[grind norm]
theorem pastAll_reverse_nil : pastAll ([] : List Tree).reverse lo = lo := rfl

@[grind norm]
theorem pastAll_reverse_cons : pastAll (t :: ts).reverse lo = t.past (pastAll ts.reverse lo) := by
  rw [List.reverse_cons, pastAll_append, pastAll_singleton]

theorem foldl_behind_mono {names : List Tree} (h : lo ≤ lo') :
    names.foldl behind lo ≤ names.foldl behind lo' := by
  induction names generalizing lo lo' with
  | nil => exact h
  | cons n names ih =>
    apply ih
    unfold behind
    split
    · split
      · exact le_rfl
      · exact le_top
    · rw [if_neg fun h' => ‹¬ _› (h.trans h')]

/-- Names that end behind where they begin do not lead back. -/
theorem le_foldl_behind {names : List Tree}
    (hnames : ∀ n ∈ names, n.start.offset ≤ n.stop.offset) : lo ≤ names.foldl behind lo := by
  induction names generalizing lo with
  | nil => exact le_rfl
  | cons n names ih =>
    obtain ⟨hn, hnames⟩ := List.forall_mem_cons.mp hnames
    refine le_trans ?_ (ih hnames)
    unfold behind
    split
    · exact le_trans ‹_› (by exact_mod_cast hn)
    · exact le_top

/-- Names with an offset behind them all stand one behind the other. -/
theorem pairwise_of_foldl_behind {names : List Tree}
    (hnames : ∀ n ∈ names, n.start.offset ≤ n.stop.offset) (h : names.foldl behind lo ≠ ⊤) :
    (∀ n ∈ names, lo ≤ n.start.offset) ∧
      names.Pairwise fun n m => n.stop.offset ≤ m.start.offset := by
  induction names generalizing lo with
  | nil => exact ⟨fun _ hn => absurd hn List.not_mem_nil, .nil⟩
  | cons n names ih =>
    obtain ⟨hn, hnames⟩ := List.forall_mem_cons.mp hnames
    obtain ⟨hlater, hpairwise⟩ := ih hnames h
    have hbehind : behind lo n ≠ ⊤ := fun htop => h (top_le_iff.mp (by
      rw [← htop]
      exact le_foldl_behind hnames))
    unfold behind at hbehind hlater
    split at hbehind
    · rename_i hlo
      rw [if_pos hlo] at hlater
      refine ⟨List.forall_mem_cons.mpr ⟨hlo, fun m hm => ?_⟩, .cons (fun m hm => ?_) hpairwise⟩
      · exact hlo.trans (le_trans (by exact_mod_cast hn) (hlater m hm))
      · exact_mod_cast hlater m hm
    · exact absurd rfl hbehind

theorem pastAll_mono (h : lo ≤ lo') : pastAll ts lo ≤ pastAll ts lo' := foldl_behind_mono h

grind_pattern pastAll_mono => pastAll ts lo, pastAll ts lo'

namespace Tree

theorem past_mono (h : lo ≤ lo') : t.past lo ≤ t.past lo' := foldl_behind_mono h

grind_pattern past_mono => t.past lo, t.past lo'

theorem IsNameless.past_eq (h : t.IsNameless) : t.past lo = lo := by
  rw [past, h.names_eq]
  rfl

grind_pattern IsNameless.past_eq => t.IsNameless, t.past lo

theorem past_name {start stop : Cursor} :
    (leaf .identifier start stop).past lo = behind lo (leaf .identifier start stop) := rfl

theorem past_of_kind (hkind : t.kind ≠ .identifier) :
    t.past lo = pastAll t.children lo := by
  rw [past, names_of_kind hkind]
  rfl

@[grind norm]
theorem past_mk {field : Option Field} {start stop : Cursor} (hkind : kind ≠ .identifier) :
    (⟨kind, field, start, stop, ts⟩ : Tree).past lo = pastAll ts lo := past_of_kind hkind

@[grind norm]
theorem past_node (hkind : kind ≠ .identifier) : (node kind ts).past lo = pastAll ts lo :=
  past_of_kind hkind

@[grind norm]
theorem past_leaf (hkind : kind ≠ .identifier) (start stop : Cursor) :
    (leaf kind start stop).past lo = lo := past_of_kind hkind

@[grind norm]
theorem past_inField (field : Field) : (t.inField field).past lo = t.past lo := by
  by_cases hkind : t.kind = .identifier
  · rw [past, past, names_of_name hkind, names_of_name (t := t.inField field) hkind]
    rfl
  · rw [past_of_kind hkind, past_of_kind (t := t.inField field) hkind]
    rfl

end Tree

theorem Nameless.past_eq (h : Nameless ts) : pastAll ts lo = lo := by
  induction ts generalizing lo with
  | nil => rfl
  | cons t ts ih =>
    obtain ⟨ht, hts⟩ := nameless_cons.mp h
    rw [pastAll_cons, ht.past_eq, ih hts]

grind_pattern Nameless.past_eq => Nameless ts, pastAll ts lo

theorem Nameless.past_reverse_eq (h : Nameless ts) : pastAll ts.reverse lo = lo :=
  (nameless_reverse.mpr h).past_eq

grind_pattern Nameless.past_reverse_eq => Nameless ts, pastAll ts.reverse lo

@[grind norm]
theorem pastAll_map_inField (field : Field) :
    pastAll (ts.map (.inField field)) lo = pastAll ts lo := by
  induction ts generalizing lo with
  | nil => rfl
  | cons t ts ih => rw [List.map_cons, pastAll_cons, pastAll_cons, Tree.past_inField, ih]

end Past

/-! ## The parts of constructs -/

/-- Whether names stand in a part only if it plays one of some roles, or is itself the name that
plays the role `own`. -/
def Tree.Plays (roles : List Field) (own : Option Field) (t : Tree) : Prop :=
  t.IsNameless ∨ (∃ f ∈ t.field, f ∈ roles) ∨ t.kind = .identifier ∧ ∃ f ∈ t.field, own = some f

def AllPlay (roles : List Field) (own : Option Field) (ts : List Tree) : Prop :=
  ∀ t ∈ ts, t.Plays roles own

section AllPlay

variable {roles : List Field} {own : Option Field}

@[grind .]
theorem allPlay_nil : AllPlay roles own [] := fun _ h => absurd h List.not_mem_nil

@[grind norm]
theorem allPlay_cons : AllPlay roles own (t :: ts) ↔ t.Plays roles own ∧ AllPlay roles own ts :=
  List.forall_mem_cons

@[grind norm]
theorem allPlay_append :
    AllPlay roles own (ts ++ us) ↔ AllPlay roles own ts ∧ AllPlay roles own us :=
  List.forall_mem_append

theorem Nameless.allPlay (h : Nameless ts) : AllPlay roles own ts := fun t ht => .inl (h t ht)

grind_pattern Nameless.allPlay => Nameless ts, AllPlay roles own ts

theorem Nameless.allPlay_map_inField (h : Nameless ts) (field : Field) :
    AllPlay roles own (ts.map (.inField field)) := ((nameless_map_inField field).mpr h).allPlay

grind_pattern Nameless.allPlay_map_inField =>
  Nameless ts, AllPlay roles own (ts.map (.inField field))

@[grind norm]
theorem Tree.plays_inField (field : Field) : (t.inField field).Plays roles own ↔
    t.IsNameless ∨ field ∈ roles ∨ t.kind = .identifier ∧ own = some field := by
  rw [Plays, isNameless_inField]
  simp [inField]

@[grind ←]
theorem Tree.IsNameless.plays (h : t.IsNameless) : t.Plays roles own := .inl h

end AllPlay

/-- The turn at which a construct is visited in a role. -/
@[grind =]
def Field.turn? : Field → Option ℕ
  | .object | .left | .rename => some 0
  | .parameters | .superclasses | .type => some 1
  | .returnType | .value | .right => some 2
  | .body => some 3
  | _ => none

/-- The turn that may follow when a part in a role comes at the turn `lo` or later. No turn follows
the last one, nor a part that comes too late. -/
@[grind =]
def Field.after (field : Field) (lo : ℕ) : ℕ :=
  match field.turn? with
  | some n => if lo ≤ n then n + 1 else 5
  | none => lo

def turnAfter (ts : List Tree) (lo : ℕ) : ℕ :=
  (ts.filterMap Tree.field).foldl (fun n f => f.after n) lo

/-- Whether parts come in the order of their turns, and at each turn one part at most. -/
def InTurn (ts : List Tree) : Prop := turnAfter ts 0 < 5

section InTurn

variable {lo : ℕ}

@[grind norm]
theorem inTurn_iff : InTurn ts ↔ turnAfter ts 0 < 5 := Iff.rfl

theorem inTurn_nil : InTurn [] := Nat.zero_lt_succ 4

@[grind norm]
theorem turnAfter_nil : turnAfter [] lo = lo := rfl

@[grind norm]
theorem turnAfter_append : turnAfter (ts ++ us) lo = turnAfter us (turnAfter ts lo) := by
  rw [turnAfter, List.filterMap_append, List.foldl_append]
  rfl

@[grind norm]
theorem turnAfter_tail : turnAfter (t :: ts ++ us).tail lo = turnAfter us (turnAfter ts lo) :=
  turnAfter_append

theorem turnAfter_cons_of_none (h : t.field = none) :
    turnAfter (t :: ts) lo = turnAfter ts lo := by
  rw [turnAfter, List.filterMap_cons_none h]
  rfl

grind_pattern turnAfter_cons_of_none => t.field, turnAfter (t :: ts) lo

@[grind norm]
theorem turnAfter_inField (field : Field) :
    turnAfter (t.inField field :: ts) lo = turnAfter ts (field.after lo) := by
  rw [turnAfter, List.filterMap_cons_some (rfl : (t.inField field).field = some field)]
  rfl

theorem turnAfter_map_inField {field : Field} (h : field.turn? = none) :
    turnAfter (ts.map (.inField field)) lo = lo := by
  induction ts with
  | nil => rfl
  | cons t ts ih => rw [List.map_cons, turnAfter_inField, Field.after, h, ih]

grind_pattern turnAfter_map_inField => turnAfter (ts.map (.inField field)) lo

theorem Unplaced.turnAfter_eq (h : Unplaced ts) : turnAfter ts lo = lo := by
  rw [turnAfter, List.filterMap_eq_nil_iff.mpr h]
  rfl

grind_pattern Unplaced.turnAfter_eq => Unplaced ts, turnAfter ts lo

end InTurn

def Tree.IsLoose (t : Tree) : Prop := t.kind ≠ .mark ∧ t.field = none

@[grind norm]
theorem Tree.isLoose_iff : t.IsLoose ↔ t.kind ≠ .mark ∧ t.field = none := Iff.rfl

def AllRename (ts : List Tree) : Prop := ∀ t ∈ ts, t.kind = .identifier ∨ t.Plays [.rename] none

/-- Whether one part after the first renames it, and other parts with names are names. -/
def Renames : List Tree → Prop
  | [] => True
  | t :: ts => t.IsLoose ∧ AllRename ts ∧ InTurn ts

section AllRename

@[grind .]
theorem allRename_nil : AllRename [] := fun _ h => absurd h List.not_mem_nil

@[grind norm]
theorem allRename_cons : AllRename (t :: ts) ↔
    (t.kind = .identifier ∨ t.Plays [.rename] none) ∧ AllRename ts := List.forall_mem_cons

@[grind norm]
theorem allRename_append : AllRename (ts ++ us) ↔ AllRename ts ∧ AllRename us :=
  List.forall_mem_append

theorem Nameless.allRename (h : Nameless ts) : AllRename ts := fun t ht => .inr (.inl (h t ht))

grind_pattern Nameless.allRename => Nameless ts, AllRename ts

@[grind norm]
theorem renames_cons : Renames (t :: ts) ↔ t.IsLoose ∧ AllRename ts ∧ InTurn ts :=
  Iff.rfl

@[grind norm]
theorem renames_cons_append : Renames (t :: ts ++ us) ↔
    t.IsLoose ∧ AllRename (ts ++ us) ∧ InTurn (ts ++ us) := Iff.rfl

end AllRename

def AllNamed (ts : List Tree) : Prop := ∀ t ∈ ts, t.field = some .name → t.kind = .identifier

section AllNamed

@[grind .]
theorem allNamed_nil : AllNamed [] := fun _ h => absurd h List.not_mem_nil

@[grind norm]
theorem allNamed_cons : AllNamed (t :: ts) ↔
    (t.field = some .name → t.kind = .identifier) ∧ AllNamed ts := List.forall_mem_cons

@[grind norm]
theorem allNamed_append : AllNamed (ts ++ us) ↔ AllNamed ts ∧ AllNamed us :=
  List.forall_mem_append

theorem Unplaced.allNamed (h : Unplaced ts) : AllNamed ts := fun t ht hname => by
  rw [h t ht] at hname
  cases hname

grind_pattern Unplaced.allNamed => Unplaced ts, AllNamed ts

@[grind norm]
theorem Tree.inField_kind (field : Field) : (t.inField field).kind = t.kind := rfl

end AllNamed

/-- A target of an assignment or a loop: something that may be bound as it stands, or a list of
targets. -/
inductive Tree.IsPattern : Tree → Prop where
  | bindable {t : Tree} (h : t.isBindable = true) : IsPattern t
  | list {t : Tree}
      (hkind : t.kind ∈ [.patternList, .tuplePattern, .listPattern, .listSplatPattern])
      (h : ∀ u ∈ t.children, ¬ u.IsNameless → IsPattern u) : IsPattern t

def AllPatterns (ts : List Tree) : Prop := ∀ t ∈ ts, ¬ t.IsNameless → t.IsPattern

section AllPatterns

@[grind .]
theorem allPatterns_nil : AllPatterns [] := fun _ h => absurd h List.not_mem_nil

@[grind norm]
theorem allPatterns_cons : AllPatterns (t :: ts) ↔
    (¬ t.IsNameless → t.IsPattern) ∧ AllPatterns ts := List.forall_mem_cons

theorem allPatterns_of_eq_singleton (h : ts = [t]) :
    AllPatterns ts ↔ (¬ t.IsNameless → t.IsPattern) := by
  rw [h]
  exact List.forall_mem_singleton

@[grind norm]
theorem allPatterns_append : AllPatterns (ts ++ us) ↔ AllPatterns ts ∧ AllPatterns us :=
  List.forall_mem_append

@[grind norm]
theorem allPatterns_flatten_reverse {chunks : List (List Tree)} :
    AllPatterns chunks.reverse.flatten ↔ AllPatterns chunks.flatten := by
  simp [AllPatterns]

@[grind norm]
theorem allPatterns_flatten_cons {chunks : List (List Tree)} :
    AllPatterns (ts :: chunks).flatten ↔ AllPatterns ts ∧ AllPatterns chunks.flatten := by
  rw [List.flatten_cons, allPatterns_append]

@[grind norm]
theorem allPatterns_flatten_nil : AllPatterns ([] : List (List Tree)).flatten := allPatterns_nil

theorem Nameless.allPatterns (h : Nameless ts) : AllPatterns ts := fun t ht hnot =>
  absurd (h t ht) hnot

grind_pattern Nameless.allPatterns => Nameless ts, AllPatterns ts

theorem AllPatterns.isPattern_node (h : AllPatterns ts) : (Tree.node .patternList ts).IsPattern :=
  .list List.mem_cons_self h

grind_pattern AllPatterns.isPattern_node => AllPatterns ts, Tree.node .patternList ts

@[grind norm]
theorem Tree.isPattern_inField (field : Field) : (t.inField field).IsPattern ↔ t.IsPattern := by
  constructor
  · intro h
    cases h with
    | bindable h => exact .bindable h
    | list hkind h => exact .list hkind h
  · intro h
    cases h with
    | bindable h => exact .bindable h
    | list hkind h => exact .list hkind h

end AllPatterns

/-- Whether names stand only in a target that plays the role `left`, and in parts after it. -/
def Leads : List Tree → Prop
  | [] => True
  | t :: ts =>
    (t.field = some .left ∧ (¬ t.IsNameless → t.IsPattern)) ∨ t.IsNameless ∧ Leads ts

section Leads

@[grind norm]
theorem leads_cons : Leads (t :: ts) ↔
    (t.field = some .left ∧ (¬ t.IsNameless → t.IsPattern)) ∨ t.IsNameless ∧ Leads ts := Iff.rfl

@[grind norm]
theorem leads_append_append {vs : List Tree} :
    Leads (ts ++ us ++ vs) ↔ Leads (ts ++ (us ++ vs)) := by
  rw [List.append_assoc]

@[grind norm]
theorem leads_cons_append : Leads (t :: ts ++ us) ↔ Leads (t :: (ts ++ us)) := Iff.rfl

theorem Nameless.leads_append (h : Nameless ts) (hus : Leads us) : Leads (ts ++ us) := by
  induction ts with
  | nil => exact hus
  | cons t ts ih =>
    obtain ⟨ht, hts⟩ := nameless_cons.mp h
    exact .inr ⟨ht, ih hts⟩

grind_pattern Nameless.leads_append => Nameless ts, Leads (ts ++ us)

/-- What a construct has on its left is a target, if there are names in it. -/
theorem Leads.isPattern_left (h : Leads ts) (hleft : ts.find? (·.field == some .left) = some t)
    (hnames : ¬ t.IsNameless) : t.IsPattern := by
  induction ts with
  | nil => cases hleft
  | cons first rest ih =>
    rw [List.find?_cons] at hleft
    split at hleft
    · obtain rfl := Option.some.inj hleft
      rcases h with ⟨-, hpattern⟩ | ⟨hnameless, -⟩
      · exact hpattern hnames
      · exact absurd hnameless hnames
    · rename_i hother
      rcases h with ⟨hfield, -⟩ | ⟨-, hrest⟩
      · simp [hfield] at hother
      · exact ih hrest hleft

end Leads

/-- What the grammar lays down for the parts of a construct: where names may stand in it, in which
order the parts with roles come, and how the modules in it are written. -/
structure HasParts (kind : Kind) (ts : List Tree) : Prop where
  token : kind = .identifier ∨ kind = .mark ∨ kind = .comment ∨ kind = .continuation → ts = []
  attributes : kind = .attribute → AllPlay [.object] (some .attribute) ts
  object : kind = .attribute → turnAfter ts.tail 1 = 1
  valueOfName : kind = .keywordArgument ∨ kind = .namedExpression →
    AllPlay [.value] (some .name) ts
  function : kind = .functionDefinition →
    AllPlay [.typeParameters, .parameters, .returnType, .body] (some .name) ts
  lambda : kind = .lambda → AllPlay [.parameters, .body] none ts
  classDefinition : kind = .classDefinition →
    AllPlay [.typeParameters, .superclasses, .body] (some .name) ts
  definition : kind = .functionDefinition ∨ kind = .classDefinition → AllNamed ts
  assignment : kind = .assignment ∨ kind = .augmentedAssignment →
    AllPlay [.left, .type, .right] none ts
  target : kind = .assignment ∨ kind = .augmentedAssignment → Leads ts
  loop : kind = .forStatement ∨ kind = .forInClause → Leads ts
  asPattern : kind = .asPattern → Renames ts
  asPatternTarget : kind = .asPatternTarget → Nameless ts.tail
  order : kind = .attribute ∨ kind = .keywordArgument ∨ kind = .namedExpression ∨
      kind = .functionDefinition ∨ kind = .lambda ∨ kind = .classDefinition ∨ kind = .assignment ∨
      kind = .augmentedAssignment ∨ kind = .defaultParameter ∨ kind = .typedParameter ∨
      kind = .typedDefaultParameter → InTurn ts
  plainImport : kind = .plainImport → AllListed ts
  fromImport : kind = .fromImport → LeadsToPath ts

@[grind norm]
theorem hasParts_iff : HasParts kind ts ↔
    (kind = .identifier ∨ kind = .mark ∨ kind = .comment ∨ kind = .continuation → ts = []) ∧
    (kind = .attribute → AllPlay [.object] (some .attribute) ts) ∧
    (kind = .attribute → turnAfter ts.tail 1 = 1) ∧
    (kind = .keywordArgument ∨ kind = .namedExpression → AllPlay [.value] (some .name) ts) ∧
    (kind = .functionDefinition →
      AllPlay [.typeParameters, .parameters, .returnType, .body] (some .name) ts) ∧
    (kind = .lambda → AllPlay [.parameters, .body] none ts) ∧
    (kind = .classDefinition → AllPlay [.typeParameters, .superclasses, .body] (some .name) ts) ∧
    (kind = .functionDefinition ∨ kind = .classDefinition → AllNamed ts) ∧
    (kind = .assignment ∨ kind = .augmentedAssignment → AllPlay [.left, .type, .right] none ts) ∧
    (kind = .assignment ∨ kind = .augmentedAssignment → Leads ts) ∧
    (kind = .forStatement ∨ kind = .forInClause → Leads ts) ∧
    (kind = .asPattern → Renames ts) ∧ (kind = .asPatternTarget → Nameless ts.tail) ∧
    (kind = .attribute ∨ kind = .keywordArgument ∨ kind = .namedExpression ∨
      kind = .functionDefinition ∨ kind = .lambda ∨ kind = .classDefinition ∨ kind = .assignment ∨
      kind = .augmentedAssignment ∨ kind = .defaultParameter ∨ kind = .typedParameter ∨
      kind = .typedDefaultParameter → InTurn ts) ∧
    (kind = .plainImport → AllListed ts) ∧ (kind = .fromImport → LeadsToPath ts) :=
  ⟨fun ⟨h₁, h₂, h₃, h₄, h₅, h₆, h₇, h₈, h₉, h₁₀, h₁₁, h₁₂, h₁₃, h₁₄, h₁₅, h₁₆⟩ =>
      ⟨h₁, h₂, h₃, h₄, h₅, h₆, h₇, h₈, h₉, h₁₀, h₁₁, h₁₂, h₁₃, h₁₄, h₁₅, h₁₆⟩,
    fun ⟨h₁, h₂, h₃, h₄, h₅, h₆, h₇, h₈, h₉, h₁₀, h₁₁, h₁₂, h₁₃, h₁₄, h₁₅, h₁₆⟩ =>
      ⟨h₁, h₂, h₃, h₄, h₅, h₆, h₇, h₈, h₉, h₁₀, h₁₁, h₁₂, h₁₃, h₁₄, h₁₅, h₁₆⟩⟩

/-- Only an import that names a module cannot be without parts. -/
theorem hasParts_nil (hpath : kind ≠ .fromImport) : HasParts kind [] where
  token _ := rfl
  attributes _ := allPlay_nil
  object _ := rfl
  valueOfName _ := allPlay_nil
  function _ := allPlay_nil
  lambda _ := allPlay_nil
  classDefinition _ := allPlay_nil
  definition _ := allNamed_nil
  assignment _ := allPlay_nil
  target _ := trivial
  loop _ := trivial
  asPattern _ := trivial
  asPatternTarget _ := nameless_nil
  order _ := inTurn_nil
  plainImport _ := allListed_nil
  fromImport h := absurd h hpath

/-- Whether the grammar lays down nothing for the parts of a construct. -/
def Kind.isPlain (kind : Kind) : Bool :=
  !List.contains [.identifier, .mark, .comment, .continuation, .attribute, .keywordArgument,
    .namedExpression, .functionDefinition, .lambda, .classDefinition, .assignment,
    .augmentedAssignment, .forStatement, .forInClause, .asPattern, .asPatternTarget,
    .defaultParameter, .typedParameter, .typedDefaultParameter, .plainImport, .fromImport] kind

section isPlain

variable (h : kind.isPlain = true)

include h

@[grind →]
theorem Kind.ne_identifier_of_isPlain : kind ≠ .identifier := by
  rintro rfl
  cases h

@[grind →]
theorem Kind.ne_mark_of_isPlain : kind ≠ .mark := by
  rintro rfl
  cases h

@[grind →]
theorem Kind.ne_fromImport_of_isPlain : kind ≠ .fromImport := by
  rintro rfl
  cases h

@[grind =>]
theorem Tree.past_node_of_isPlain {lo : ℕ∞} : (node kind ts).past lo = pastAll ts lo :=
  past_node (Kind.ne_identifier_of_isPlain h)

theorem hasParts_of_isPlain : HasParts kind ts := by
  constructor
  case order => rintro (rfl | rfl | rfl | rfl | rfl | rfl | rfl | rfl | rfl | rfl | rfl) <;> cases h
  all_goals rintro (rfl | rfl | rfl | rfl) <;> cases h

end isPlain

end SymbolAtlas.Python
