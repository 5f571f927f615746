import SymbolAtlas.Proofs.Python.NodeParts
import SymbolAtlas.Proofs.Text.Cursor
import SymbolAtlas.Python.Grammar.Statement

/-! # Names in a syntax tree

A name in a tree should be a whole word of the source: neither the character before it nor the one
after it belongs to a word. And it should stand where the grammar has a place for a name. Both are
properties of single nodes, so they are kept when nodes are put together, renamed or taken for
targets; and so is the order of the names.
-/

namespace SymbolAtlas.Python

variable {source : List Char}

/-! ## Places between words -/

/-- Whether a place has no characters of words on both of its sides. -/
def isApart (source : List Char) (c : Cursor) : Bool :=
  !((source.take c.offset).getLast?.any isWordPart && c.rest.head?.any isWordPart)

theorem isApart_of_rest {c : Cursor} (h : c.rest.head?.any isWordPart = false) :
    isApart source c = true := by
  rw [isApart, h, Bool.and_false]
  rfl

/-- After a run of characters of which the last belongs to no word, no word goes on. -/
theorem isApart_advance {c : Cursor} (hc : c.IsIn source) {run rest : List Char}
    (hrest : c.rest = run ++ rest) (hrun : run.getLast?.any (!isWordPart ·) = true) :
    isApart source (c.advance run.length) = true := by
  cases hlast : run.getLast? with
  | none =>
    rw [hlast] at hrun
    cases hrun
  | some d =>
    have hd : isWordPart d = false := by simpa [hlast] using hrun
    rw [isApart, hc.take_advance_offset hrest, List.getLast?_append, hlast]
    simp [hd]

/-- Characters that belong to no word may be passed over. -/
theorem isApart_takeWhile {c : Cursor} (hc : c.IsIn source) {isBetween : Char → Bool}
    (hbetween : ∀ d, isBetween d = true → isWordPart d = false)
    (h : isApart source c = true) :
    isApart source (c.advance (c.rest.takeWhile isBetween).length) = true := by
  cases hlast : (c.rest.takeWhile isBetween).getLast? with
  | none => rwa [List.getLast?_eq_none_iff.mp hlast]
  | some d =>
    apply isApart_advance hc List.takeWhile_append_dropWhile.symm
    have hd := List.all_takeWhile (p := isBetween) (l := c.rest)
    rw [hlast, Option.any_some, hbetween d (List.all_eq_true.mp hd d (List.mem_of_getLast? hlast))]
    rfl

theorem take_wordOf (cs : List Char) : cs.take (wordOf cs).length = wordOf cs := by
  unfold wordOf
  split
  · exact (List.prefix_iff_eq_take.mp (List.takeWhile_prefix isWordPart)).symm
  · rfl

theorem wordOf_eq {cs : List Char} (h : wordOf cs ≠ []) : wordOf cs = cs.takeWhile isWordPart := by
  unfold wordOf at h ⊢
  split at h
  · rw [if_pos ‹_›]
  · exact absurd rfl h

/-! ## Trees of whole words -/

namespace Tree

/-- The node covers a whole word of the source. -/
structure IsWord (source : List Char) (t : Tree) : Prop where
  start_isIn : t.start.IsIn source
  isApart_start : isApart source t.start = true
  chars_eq : t.chars = wordOf t.start.rest
  chars_ne_nil : t.chars ≠ []

/-- A word is not empty. -/
theorem IsWord.start_lt_stop {t : Tree} (h : t.IsWord source) :
    t.start.offset < t.stop.offset := by
  have hne := h.chars_ne_nil
  rw [chars, Cursor.slice, Ne, List.take_eq_nil_iff] at hne
  omega

/-- The node is a whole word of the source if it is a name, and has the parts of its construct. -/
structure Conforms (source : List Char) (t : Tree) : Prop where
  isWord : t.kind = .identifier → t.IsWord source
  hasParts : HasParts t.kind t.children

/-- All nodes of the tree conform to the source and the grammar. -/
def IsFaithful (source : List Char) (t : Tree) : Prop := ∀ n ∈ t.nodes, n.Conforms source

end Tree

def AllFaithful (source : List Char) (ts : List Tree) : Prop := ∀ t ∈ ts, t.IsFaithful source

variable {ts us : List Tree}

@[grind .]
theorem allFaithful_nil : AllFaithful source [] := by
  intro t ht
  cases ht

@[grind norm]
theorem allFaithful_cons {t : Tree} :
    AllFaithful source (t :: ts) ↔ t.IsFaithful source ∧ AllFaithful source ts :=
  List.forall_mem_cons

theorem allFaithful_of_eq_singleton {t : Tree} (h : ts = [t]) :
    AllFaithful source ts ↔ t.IsFaithful source := by
  rw [h]
  exact List.forall_mem_singleton

@[grind norm]
theorem allFaithful_append :
    AllFaithful source (ts ++ us) ↔ AllFaithful source ts ∧ AllFaithful source us :=
  List.forall_mem_append

@[grind norm]
theorem allFaithful_reverse : AllFaithful source ts.reverse ↔ AllFaithful source ts := by
  simp [AllFaithful]

@[grind norm]
theorem allFaithful_flatten_nil : AllFaithful source ([] : List (List Tree)).flatten :=
  allFaithful_nil

@[grind norm]
theorem allFaithful_flatten_cons {chunks : List (List Tree)} :
    AllFaithful source (ts :: chunks).flatten ↔
      AllFaithful source ts ∧ AllFaithful source chunks.flatten := by
  rw [List.flatten_cons, allFaithful_append]

@[grind norm]
theorem allFaithful_flatten_reverse {chunks : List (List Tree)} :
    AllFaithful source chunks.reverse.flatten ↔ AllFaithful source chunks.flatten := by
  simp [AllFaithful]

namespace Tree

variable {kind : Kind} {t : Tree}

theorem isFaithful_iff :
    t.IsFaithful source ↔ t.Conforms source ∧ AllFaithful source t.children := by
  obtain ⟨kind, field, start, stop, children⟩ := t
  simp only [IsFaithful, nodes, List.forall_mem_cons, AllFaithful, mem_nodesOf]
  constructor
  · rintro ⟨hself, hchildren⟩
    exact ⟨hself, fun t ht n hn => hchildren n ⟨t, ht, hn⟩⟩
  · rintro ⟨hself, hchildren⟩
    refine ⟨hself, ?_⟩
    rintro n ⟨t, ht, hn⟩
    exact hchildren t ht n hn

@[grind ←]
theorem IsFaithful.children (h : t.IsFaithful source) : AllFaithful source t.children :=
  (isFaithful_iff.mp h).2

theorem IsFaithful.hasParts (h : t.IsFaithful source) : HasParts t.kind t.children :=
  (isFaithful_iff.mp h).1.hasParts

/-- Any node but a name is faithful when it has its parts and they are. -/
theorem isFaithful_of_kind (hkind : t.kind ≠ .identifier) :
    t.IsFaithful source ↔ HasParts t.kind t.children ∧ AllFaithful source t.children := by
  rw [isFaithful_iff]
  exact and_congr_left fun _ => ⟨fun h => h.hasParts, fun h => ⟨fun hname => absurd hname hkind, h⟩⟩

@[grind norm]
theorem isFaithful_mk {field : Option Field} {start stop : Cursor} (hkind : kind ≠ .identifier) :
    (⟨kind, field, start, stop, ts⟩ : Tree).IsFaithful source ↔
      HasParts kind ts ∧ AllFaithful source ts := isFaithful_of_kind hkind

@[grind norm]
theorem isFaithful_node (hkind : kind ≠ .identifier) :
    (node kind ts).IsFaithful source ↔ HasParts kind ts ∧ AllFaithful source ts :=
  isFaithful_of_kind hkind

@[grind =]
theorem isFaithful_node_of_isPlain (hkind : kind.isPlain = true) :
    (node kind ts).IsFaithful source ↔ AllFaithful source ts :=
  (isFaithful_node (Kind.ne_identifier_of_isPlain hkind)).trans
    (and_iff_right (hasParts_of_isPlain hkind))

@[grind ←]
theorem isFaithful_leaf (hkind : kind ≠ .identifier) (hpath : kind ≠ .fromImport)
    (start stop : Cursor) : (leaf kind start stop).IsFaithful source :=
  (isFaithful_of_kind hkind).mpr ⟨hasParts_nil hpath, allFaithful_nil⟩

@[grind norm]
theorem isFaithful_inField (field : Field) :
    (t.inField field).IsFaithful source ↔ t.IsFaithful source := by
  have hword : (t.inField field).IsWord source ↔ t.IsWord source :=
    ⟨fun ⟨hin, hstart, hchars, hne⟩ => ⟨hin, hstart, hchars, hne⟩,
      fun ⟨hin, hstart, hchars, hne⟩ => ⟨hin, hstart, hchars, hne⟩⟩
  rw [isFaithful_iff, isFaithful_iff]
  exact and_congr_left fun _ =>
    ⟨fun ⟨hname, hparts⟩ => ⟨fun hkind => hword.mp (hname hkind), hparts⟩,
      fun ⟨hname, hparts⟩ => ⟨fun hkind => hword.mpr (hname hkind), hparts⟩⟩

/-- A token has no parts, so as another kind of node it has no names. -/
theorem IsFaithful.withKind (h : t.IsFaithful source)
    (htoken : t.kind = .identifier ∨ t.kind = .mark) (hkind : kind ≠ .identifier)
    (hpath : kind ≠ .fromImport) :
    (t.withKind kind).IsFaithful source ∧ (t.withKind kind).IsNameless := by
  have hchildren : (t.withKind kind).children = [] :=
    h.hasParts.token (htoken.imp_right .inl)
  rw [isFaithful_of_kind (by exact hkind), isNameless_of_kind (by exact hkind), hchildren]
  exact ⟨⟨hasParts_nil hpath, allFaithful_nil⟩, nameless_nil⟩

grind_pattern IsFaithful.withKind => t.IsFaithful source, t.withKind kind

/-- Comments and joining backslashes have no names. -/
theorem IsFaithful.isNameless_of_isExtra (h : t.IsFaithful source) (hextra : t.isExtra = true) :
    t.IsNameless := by
  have hkind : t.kind = .comment ∨ t.kind = .continuation := by simpa [isExtra] using hextra
  rw [isNameless_of_kind (by rcases hkind with hkind | hkind <;> rw [hkind] <;> decide),
    h.hasParts.token (.inr (.inr hkind))]
  exact nameless_nil

/-- So have keywords, operators and brackets. -/
theorem IsFaithful.isNameless_of_mark (h : t.IsFaithful source) (hmark : t.kind = .mark) :
    t.IsNameless := by
  rw [isNameless_of_kind (by rw [hmark]; decide), h.hasParts.token (.inr (.inl hmark))]
  exact nameless_nil

end Tree

theorem AllExtra.nameless (h : AllExtra ts) (hts : AllFaithful source ts) : Nameless ts :=
  fun t ht => (hts t ht).isNameless_of_isExtra (h t ht).1

@[grind norm]
theorem allFaithful_map_inField (field : Field) :
    AllFaithful source (ts.map (.inField field)) ↔ AllFaithful source ts := by
  simp [AllFaithful, Tree.isFaithful_inField]

/-- Names end behind where they begin, so no name leads back. -/
theorem AllFaithful.le_pastAll (h : AllFaithful source ts) (lo : ℕ∞) : lo ≤ pastAll ts lo := by
  apply le_foldl_behind
  intro n hn
  obtain ⟨hn, hkind⟩ := List.mem_filter.mp hn
  obtain ⟨t, ht, hn⟩ := mem_nodesOf.mp hn
  exact ((h t ht n hn).isWord (beq_iff_eq.mp hkind)).start_lt_stop.le

theorem Tree.IsFaithful.le_past {t : Tree} (h : t.IsFaithful source) (lo : ℕ∞) :
    lo ≤ t.past lo := by
  rw [← pastAll_singleton]
  exact AllFaithful.le_pastAll (allFaithful_cons.mpr ⟨h, allFaithful_nil⟩) lo

theorem Tree.IsFaithful.pastAll_children_le {t : Tree} (h : t.IsFaithful source) (lo : ℕ∞) :
    pastAll t.children lo ≤ t.past lo := by
  by_cases hkind : t.kind = .identifier
  · rw [h.hasParts.token (.inl hkind)]
    exact h.le_past lo
  · rw [Tree.past_of_kind hkind]

grind_pattern Tree.IsFaithful.pastAll_children_le => t.IsFaithful source, pastAll t.children lo

/-! ## Targets and stars -/

namespace Tree

/-- A node that may stand for the trees: it is faithful and has their names. -/
structure StandsFor (source : List Char) (u : Tree) (ts : List Tree) : Prop where
  faithful : u.IsFaithful source
  past_eq : ∀ lo, u.past lo = pastAll ts lo

@[grind norm]
theorem standsFor_iff {u : Tree} : u.StandsFor source ts ↔
    u.IsFaithful source ∧ ∀ lo, u.past lo = pastAll ts lo :=
  ⟨fun ⟨h₁, h₂⟩ => ⟨h₁, h₂⟩, fun ⟨h₁, h₂⟩ => ⟨h₁, h₂⟩⟩

mutual

/-- The target that an expression serves as has its names. -/
theorem standsFor_asTarget : ∀ {t u : Tree}, t.IsFaithful source → t.asTarget? = some u →
    u.StandsFor source [t]
  | ⟨kind, field, start, stop, children⟩, u, h, hu => by
    have hchildren := h.children
    have hself : (⟨kind, field, start, stop, children⟩ : Tree).StandsFor source
        [⟨kind, field, start, stop, children⟩] := ⟨h, fun _ => pastAll_singleton.symm⟩
    have hlist {target : Kind} (hkind : kind ≠ .identifier) (htarget : target ≠ .identifier)
        (hparts : ∀ ts, HasParts target ts)
        (hu : (asTargets? children).map (fun ts => (⟨target, field, start, stop, ts⟩ : Tree)) =
          some u) : u.StandsFor source [⟨kind, field, start, stop, children⟩] := by
      obtain ⟨ts, hts, rfl⟩ := Option.map_eq_some_iff.mp hu
      obtain ⟨hfaithful, hpast⟩ := standsFor_asTargets hchildren hts
      refine ⟨(isFaithful_mk htarget).mpr ⟨hparts ts, hfaithful⟩, fun lo => ?_⟩
      rw [past_mk htarget, hpast, pastAll_cons, past_mk hkind]
      rfl
    unfold asTarget? at hu
    split at hu
    iterate 3
      · obtain rfl := Option.some.inj hu
        exact hself
    iterate 3
      · exact hlist (by decide) (by decide) (fun ts => by grind) hu
    · split at hu
      · obtain rfl := Option.some.inj hu
        refine ⟨(isFaithful_mk (by decide)).mpr ⟨by grind, hchildren⟩, fun lo => ?_⟩
        rw [past_mk (by decide), pastAll_cons, past_mk (by decide)]
        rfl
      · cases hu
    · cases hu

theorem standsFor_asTargets : ∀ {ts us : List Tree}, AllFaithful source ts →
    asTargets? ts = some us → AllFaithful source us ∧ ∀ lo, pastAll us lo = pastAll ts lo
  | [], us, _, hus => by
    obtain rfl := Option.some.inj hus
    exact ⟨allFaithful_nil, fun _ => rfl⟩
  | t :: ts, us, h, hus => by
    obtain ⟨ht, hts⟩ := allFaithful_cons.mp h
    have hcons {t' : Tree} (ht' : t'.IsFaithful source ∧ ∀ lo, t'.past lo = t.past lo)
        (hus : ((asTargets? ts).bind fun us => some (t' :: us)) = some us) :
        AllFaithful source us ∧ ∀ lo, pastAll us lo = pastAll (t :: ts) lo := by
      obtain ⟨us', hus', hcons⟩ := Option.bind_eq_some_iff.mp hus
      obtain rfl := Option.some.inj hcons
      obtain ⟨hfaithful, hpast⟩ := standsFor_asTargets hts hus'
      refine ⟨allFaithful_cons.mpr ⟨ht'.1, hfaithful⟩, fun lo => ?_⟩
      rw [pastAll_cons, pastAll_cons, ht'.2, hpast]
    unfold asTargets? at hus
    split at hus
    · obtain ⟨t', ht', hus⟩ := Option.bind_eq_some_iff.mp hus
      obtain ⟨hfaithful, hpast⟩ := standsFor_asTarget ht ht'
      exact hcons ⟨hfaithful, fun lo => (hpast lo).trans pastAll_singleton⟩ hus
    · exact hcons ⟨ht, fun _ => rfl⟩ hus

end

mutual

/-- What an expression serves as is a target. -/
theorem isPattern_asTarget : ∀ {t u : Tree}, t.IsFaithful source → t.asTarget? = some u →
    u.IsPattern
  | ⟨kind, field, start, stop, children⟩, u, h, hu => by
    have hlist {target : Kind}
        (hkind : target ∈ [.patternList, .tuplePattern, .listPattern, .listSplatPattern])
        (hu : (asTargets? children).map (fun ts => (⟨target, field, start, stop, ts⟩ : Tree)) =
          some u) : u.IsPattern := by
      obtain ⟨ts, hts, rfl⟩ := Option.map_eq_some_iff.mp hu
      exact .list hkind (allPatterns_asTargets h.children hts)
    unfold asTarget? at hu
    split at hu
    iterate 3
      · obtain rfl := Option.some.inj hu
        exact .bindable rfl
    iterate 3
      · exact hlist (by decide) hu
    · split at hu
      · rename_i hall
        obtain rfl := Option.some.inj hu
        refine .list (by simp) fun t ht hnames => ?_
        have hfaithful := h.children t ht
        have hpart := List.all_eq_true.mp hall t ht
        rw [Bool.or_eq_true, Bool.or_eq_true] at hpart
        rcases hpart with (hextra | hmark) | hbindable
        · exact absurd (hfaithful.isNameless_of_isExtra hextra) hnames
        · exact absurd (hfaithful.isNameless_of_mark (by simpa [isNamed] using hmark)) hnames
        · exact .bindable hbindable
      · cases hu
    · cases hu

theorem allPatterns_asTargets : ∀ {ts us : List Tree}, AllFaithful source ts →
    asTargets? ts = some us → AllPatterns us
  | [], us, _, hus => by
    obtain rfl := Option.some.inj hus
    exact allPatterns_nil
  | t :: ts, us, h, hus => by
    obtain ⟨ht, hts⟩ := allFaithful_cons.mp h
    have hcons {t' : Tree} (ht' : ¬ t'.IsNameless → t'.IsPattern)
        (hus : ((asTargets? ts).bind fun us => some (t' :: us)) = some us) : AllPatterns us := by
      obtain ⟨us', hus', hcons⟩ := Option.bind_eq_some_iff.mp hus
      obtain rfl := Option.some.inj hcons
      exact allPatterns_cons.mpr ⟨ht', allPatterns_asTargets hts hus'⟩
    unfold asTargets? at hus
    split at hus
    · obtain ⟨t', ht', hus⟩ := Option.bind_eq_some_iff.mp hus
      exact hcons (fun _ => isPattern_asTarget ht ht') hus
    · rename_i hnot
      refine hcons (fun hnames => absurd ?_ hnames) hus
      cases hextra : t.isExtra with
      | true => exact ht.isNameless_of_isExtra hextra
      | false => exact ht.isNameless_of_mark (by simpa [hextra, isNamed] using hnot)

end

/-- A starred operand has the names of the operand. -/
theorem IsFaithful.starred {t u : Tree} {stars : List (List Tree)} (h : t.IsFaithful source)
    (hstars : AllFaithful source stars.flatten) (hnameless : Nameless stars.flatten)
    (hu : t.starred? stars = some u) : u.IsFaithful source ∧ ∀ lo, u.past lo = t.past lo := by
  fun_induction starred? stars t generalizing u with
  | case1 =>
    obtain rfl := Option.some.inj hu
    exact ⟨h, fun _ => rfl⟩
  | case2 =>
    obtain rfl := Option.some.inj hu
    grind
  | case3 field start stop star stars base rest ih
  | case4 field start stop star stars base rest ih =>
    -- The part that the star stands for is the whole node.
    obtain ⟨t, ht, rfl⟩ := Option.map_eq_some_iff.mp hu
    obtain ⟨hstar, hstars⟩ := allFaithful_append.mp hstars
    obtain ⟨hstarNameless, hnameless⟩ := nameless_append.mp hnameless
    obtain ⟨hbase, hrest⟩ := allFaithful_cons.mp h.children
    have := ih hbase hstars hnameless ht
    have := h.hasParts
    grind
  | case5 field start stop stars base rest _ ih =>
    -- A call is starred as far as what is called.
    obtain ⟨t, ht, rfl⟩ := Option.map_eq_some_iff.mp hu
    obtain ⟨hbase, hrest⟩ := allFaithful_cons.mp h.children
    have := ih hbase hstars hnameless ht
    grind
  | case6 => cases hu

theorem IsLoose.starred {t u : Tree} {stars : List (List Tree)} (h : t.IsLoose)
    (hu : t.starred? stars = some u) : u.IsLoose := by
  fun_induction starred? stars t with
  | case1 => exact Option.some.inj hu ▸ h
  | case2 =>
    obtain rfl := Option.some.inj hu
    exact ⟨Kind.noConfusion, rfl⟩
  | case3 | case4 | case5 =>
    obtain ⟨_, -, rfl⟩ := Option.map_eq_some_iff.mp hu
    exact ⟨Kind.noConfusion, rfl⟩
  | case6 => cases hu

grind_pattern IsLoose.starred => t.starred? stars, some u

theorem standsFor_starred {t u : Tree} {stars : List (List Tree)} (h : t.IsFaithful source)
    (hstars : AllFaithful source stars.flatten)
    (hnameless : Nameless stars.flatten) (hu : t.starred? stars = some u) :
    u.StandsFor source [t] := by
  obtain ⟨hfaithful, hpast⟩ := h.starred hstars hnameless hu
  exact ⟨hfaithful, fun lo => (hpast lo).trans pastAll_singleton.symm⟩

grind_pattern standsFor_starred => t.IsFaithful source, t.starred? stars, some u

end Tree

theorem Grammar.standsFor_targetOf {list : Grammar.Items} {u : Tree}
    (h : AllFaithful source list.trees) (hu : Grammar.targetOf? list = some u) :
    u.StandsFor source list.trees := by
  unfold Grammar.targetOf? at hu
  split at hu
  · rename_i t _ hlist
    rw [hlist] at h ⊢
    exact Tree.standsFor_asTarget (allFaithful_cons.mp h).1 hu
  · obtain ⟨ts, hts, rfl⟩ := Option.map_eq_some_iff.mp hu
    obtain ⟨hfaithful, hpast⟩ := Tree.standsFor_asTargets h hts
    refine ⟨(Tree.isFaithful_node (by decide)).mpr ⟨by grind, hfaithful⟩, fun lo => ?_⟩
    rw [Tree.past_node (by decide), hpast]

theorem Grammar.isPattern_targetOf {list : Grammar.Items} {u : Tree}
    (h : AllFaithful source list.trees) (hu : Grammar.targetOf? list = some u) : u.IsPattern := by
  unfold Grammar.targetOf? at hu
  split at hu
  · rename_i t _ hlist
    rw [hlist] at h
    exact Tree.isPattern_asTarget (allFaithful_cons.mp h).1 hu
  · obtain ⟨ts, hts, rfl⟩ := Option.map_eq_some_iff.mp hu
    exact (Tree.allPatterns_asTargets h hts).isPattern_node

end SymbolAtlas.Python
