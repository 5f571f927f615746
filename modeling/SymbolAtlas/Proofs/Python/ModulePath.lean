import SymbolAtlas.Proofs.Text.Cursor
import SymbolAtlas.Python.Lexeme
import SymbolAtlas.Python.Tree.Imports

/-! # Module paths

The grammar lets blanks, comments and joining backslashes stand between the dots and names of a
module path. What a reader of the path's text needs to know of such a gap is only that it begins
with no dot.
-/

namespace SymbolAtlas.Python

variable {c mid stop : Cursor} {kind : Kind} {d t u : Tree} {ds es ts us : List Tree}

/-! ## Gaps -/

/-- From `c` on to `stop` there is nothing, or something that begins with no dot. -/
structure Gap (c stop : Cursor) : Prop where
  reaches : c.Reaches stop
  undotted : c = stop ∨ c.rest.head? ≠ some '.'

namespace Gap

theorem refl (c : Cursor) : Gap c c := ⟨.refl c, .inl rfl⟩

/-- A gap goes on where no dot follows it. -/
theorem trans (h : Gap c mid) (hreaches : mid.Reaches stop)
    (hmid : mid.rest.head? ≠ some '.') : Gap c stop := by
  refine ⟨h.reaches.trans hreaches, .inr ?_⟩
  rcases h.undotted with rfl | hc
  · exact hmid
  · exact hc

end Gap

/-! ## Dots and names -/

namespace Tree

/-- The node is a dot. -/
structure IsDot (t : Tree) : Prop where
  kind : t.kind = .mark
  head : t.start.rest.head? = some '.'
  stop_eq : t.stop = t.start.advance 1

/-- The node is a name, made of characters of words. -/
structure IsComponent (t : Tree) : Prop where
  kind : t.kind = .identifier
  reaches : t.start.Reaches t.stop
  chars_ne_nil : t.chars ≠ []
  isWordPart : ∀ c ∈ t.chars, isWordPart c = true

theorem IsDot.reaches (h : t.IsDot) : t.start.Reaches t.stop := h.stop_eq ▸ .advance _ 1

theorem IsComponent.not_mem (h : t.IsComponent) {c : Char} (hc : Python.isWordPart c = false) :
    c ∉ t.chars := fun hmem => by
  rw [h.isWordPart c hmem] at hc
  cases hc

theorem IsComponent.head (h : t.IsComponent) : t.start.rest.head? ≠ some '.' := by
  obtain ⟨c, cs, hchars⟩ := List.exists_cons_of_ne_nil h.chars_ne_nil
  have hrest : t.start.rest = c :: cs ++ t.stop.rest := hchars ▸ h.reaches.rest_eq
  rw [hrest, List.cons_append, List.head?_cons]
  intro hdot
  refine h.not_mem (c := '.') (by decide +kernel) ?_
  rw [hchars, Option.some.inj hdot]
  exact List.mem_cons_self

end Tree

/-- Dots that stand one behind the other, the first one at `c` and the last one up to `stop`. -/
inductive Dotted : Cursor → List Tree → Cursor → Prop where
  | one {d : Tree} (hd : d.IsDot) : Dotted d.start [d] d.stop
  | cons {d : Tree} {ds : List Tree} {mid stop : Cursor} (hd : d.IsDot) (hgap : Gap d.stop mid)
      (hds : Dotted mid ds stop) : Dotted d.start (d :: ds) stop

theorem Dotted.ne_nil (h : Dotted c ds stop) : ds ≠ [] := by
  cases h with
  | one _ => exact List.cons_ne_nil _ _
  | cons _ _ _ => exact List.cons_ne_nil _ _

theorem Dotted.concat (h : Dotted c ds mid) (hgap : Gap mid d.start) (hd : d.IsDot) :
    Dotted c (ds ++ [d]) d.stop := by
  induction h with
  | one hfirst => exact .cons hfirst hgap (.one hd)
  | cons hfirst hnext _ ih => exact .cons hfirst hnext (ih hgap)

/-! ## Paths -/

namespace Tree

def prefixDots (t : Tree) : List Tree :=
  (t.children.head?.filter (·.kind == .importPrefix)).elim [] fun p =>
    p.children.filter (·.kind == .mark)

def firstDot? (t : Tree) : Option Tree := t.children.find? (·.kind == .mark)

structure IsPrefix (t : Tree) : Prop where
  kind : t.kind = .importPrefix
  dots : Dotted t.start (t.children.filter (·.kind == .mark)) t.stop

/-- The component begins the dotted name. Behind it nothing follows, or a dot and what else the name
has. -/
structure Begins (first t : Tree) : Prop where
  component : first.IsComponent
  start_eq : first.start = t.start
  alone : t.firstDot? = none → first.stop = t.stop
  dotted : ∀ dot ∈ t.firstDot?, dot.IsDot ∧ Gap first.stop dot.start ∧ dot.stop.Reaches t.stop

structure IsDottedName (t : Tree) : Prop where
  kind : t.kind = .dottedName
  first : ∃ first ∈ t.children.head?, first.Begins t

/-- A relative module begins with dots, and no other dot follows them. -/
structure IsRelative (t : Tree) : Prop where
  kind : t.kind = .relativeImport
  dots : ∃ stop, Dotted t.start t.prefixDots stop ∧ Gap stop t.stop

def IsPath (t : Tree) : Prop := t.IsDottedName ∨ t.IsRelative

theorem IsDottedName.inField (h : t.IsDottedName) (field : Field) :
    (t.inField field).IsDottedName :=
  ⟨h.kind, h.first.imp fun _ ⟨hhead, h⟩ => ⟨hhead, h.component, h.start_eq, h.alone, h.dotted⟩⟩

theorem IsPath.inField (h : t.IsPath) (field : Field) : (t.inField field).IsPath :=
  h.imp (·.inField field) fun h => ⟨h.kind, h.dots⟩

theorem Begins.reaches {first : Tree} (h : first.Begins t) : first.stop.Reaches t.stop := by
  cases hfirstDot : t.firstDot? with
  | none => exact h.alone hfirstDot ▸ .refl _
  | some dot =>
    obtain ⟨hdot, hgap, hstop⟩ := h.dotted dot hfirstDot
    exact (hgap.reaches.trans hdot.reaches).trans hstop

theorem IsDottedName.reaches (h : t.IsDottedName) : t.start.Reaches t.stop := by
  obtain ⟨first, -, hfirst⟩ := h.first
  exact hfirst.start_eq ▸ hfirst.component.reaches.trans hfirst.reaches

theorem IsDottedName.head (h : t.IsDottedName) : t.start.rest.head? ≠ some '.' := by
  obtain ⟨first, -, hfirst⟩ := h.first
  exact hfirst.start_eq ▸ hfirst.component.head

theorem IsDottedName.children_ne_nil (h : t.IsDottedName) : t.children ≠ [] := by
  obtain ⟨first, hhead, -⟩ := h.first
  intro hnil
  rw [hnil] at hhead
  cases hhead

theorem IsDottedName.prefixDots_eq (h : t.IsDottedName) : t.prefixDots = [] := by
  obtain ⟨first, hhead, hfirst⟩ := h.first
  rw [prefixDots, Option.mem_def.mp hhead, Option.filter_some, hfirst.component.kind]
  rfl

theorem node_stop_concat : (node kind (ts ++ [t])).stop = t.stop := by
  simp [node]

theorem node_start_append (h : ts ≠ []) : (node kind (ts ++ us)).start = (node kind ts).start := by
  obtain ⟨t, ts, rfl⟩ := List.exists_cons_of_ne_nil h
  rfl

/-- Comments and joining backslashes are no marks. -/
theorem kind_ne_mark_of_isExtra (h : t.isExtra = true) : ¬ (t.kind == .mark) = true := by
  intro hmark
  rw [isExtra, beq_iff_eq.mp hmark] at h
  cases h

theorem isModulePath_of_isExtra (h : t.isExtra = true) : t.isModulePath = false := by
  rw [isExtra, Bool.or_eq_true, beq_iff_eq, beq_iff_eq] at h
  rcases h with h | h
  · simp [isModulePath, h]
  · simp [isModulePath, h]

/-! A prefix is read a dot at a time. -/

theorem isPrefix_singleton (h : t.IsDot) : (node .importPrefix [t]).IsPrefix where
  kind := rfl
  dots := by
    have hfilter : (node .importPrefix [t]).children.filter (·.kind == .mark) = [t] := by
      simp [node, h.kind]
    rw [hfilter]
    exact .one h

theorem IsPrefix.concat (h : (node .importPrefix ts).IsPrefix) (hes : ∀ t ∈ es, t.isExtra = true)
    (hgap : Gap (node .importPrefix ts).stop d.start) (hd : d.IsDot) :
    (node .importPrefix (ts ++ (es ++ [d]))).IsPrefix where
  kind := rfl
  dots := by
    have hts : ts ≠ [] := by
      rintro rfl
      exact h.dots.ne_nil rfl
    have hfilter : (node .importPrefix (ts ++ (es ++ [d]))).children.filter (·.kind == .mark) =
        ts.filter (·.kind == .mark) ++ [d] := by
      simp [node, List.filter_append, hd.kind,
        List.filter_eq_nil_iff.mpr fun t ht => kind_ne_mark_of_isExtra (hes t ht)]
    rw [hfilter, node_start_append hts, ← List.append_assoc, node_stop_concat]
    exact h.dots.concat hgap hd

theorem IsPrefix.isRelative (h : t.IsPrefix)
    (hgap : Gap t.stop (node .relativeImport (t :: ts)).stop) :
    (node .relativeImport (t :: ts)).IsRelative where
  kind := rfl
  dots := by
    have hdots : (node .relativeImport (t :: ts)).prefixDots =
        t.children.filter (·.kind == .mark) := by
      simp [prefixDots, node, Option.filter_some, h.kind]
    rw [hdots]
    exact ⟨t.stop, h.dots, hgap⟩

/-! A dotted name is read a dot and a name at a time. -/

theorem isDottedName_singleton (h : t.IsComponent) : (node .dottedName [t]).IsDottedName where
  kind := rfl
  first := by
    have hnone : (node .dottedName [t]).firstDot? = none := by
      rw [firstDot?, node, List.find?_singleton, h.kind]
      rfl
    refine ⟨t, rfl, h, rfl, fun _ => rfl, fun dot hdot => ?_⟩
    rw [hnone] at hdot
    cases hdot

theorem IsDottedName.concat (h : (node .dottedName ts).IsDottedName)
    (hes : ∀ t ∈ es, t.isExtra = true) (hgap : Gap (node .dottedName ts).stop d.start)
    (hd : d.IsDot) (hgap' : Gap d.stop u.start) (hu : u.IsComponent) :
    (node .dottedName (ts ++ (es ++ [d]) ++ (us ++ [u]))).IsDottedName where
  kind := rfl
  first := by
    obtain ⟨first, hhead, hfirst, hstart, halone, hdot⟩ := h.first
    have hts : ts ≠ [] := h.children_ne_nil
    have hstop : (node .dottedName (ts ++ (es ++ [d]) ++ (us ++ [u]))).stop = u.stop := by
      rw [← List.append_assoc, node_stop_concat]
    have hstart' : (node .dottedName (ts ++ (es ++ [d]) ++ (us ++ [u]))).start =
        (node .dottedName ts).start := by
      rw [List.append_assoc, node_start_append hts]
    have hreaches : d.stop.Reaches u.stop := hgap'.reaches.trans hu.reaches
    have hfind : (node .dottedName (ts ++ (es ++ [d]) ++ (us ++ [u]))).firstDot? =
        (node .dottedName ts).firstDot?.or (some d) := by
      simp [firstDot?, node, List.find?_append, hd.kind,
        List.find?_eq_none.mpr fun t ht => kind_ne_mark_of_isExtra (hes t ht)]
    refine ⟨first, ?_, hfirst, hstart.trans hstart'.symm, fun hnone => ?_, fun dot hmem => ?_⟩
    · obtain ⟨rest, rfl⟩ := List.head?_eq_some_iff.mp hhead
      rfl
    · rw [hfind, Option.or_eq_none_iff] at hnone
      cases hnone.2
    · rw [hfind, Option.mem_def] at hmem
      rw [hstop]
      cases hts : (node .dottedName ts).firstDot? with
      | none =>
        rw [hts, Option.none_or] at hmem
        obtain rfl := Option.some.inj hmem
        exact ⟨hd, halone hts ▸ hgap, hreaches⟩
      | some earlier =>
        rw [hts, Option.some_or] at hmem
        obtain rfl := Option.some.inj hmem
        obtain ⟨hearlier, hbefore, hbehind⟩ := hdot earlier hts
        exact ⟨hearlier, hbefore,
          ((hbehind.trans hgap.reaches).trans hd.reaches).trans hreaches⟩

theorem IsPath.isModulePath (h : t.IsPath) : t.isModulePath = true := by
  rcases h with h | h
  · simp [Tree.isModulePath, h.kind]
  · simp [Tree.isModulePath, h.kind]

end Tree

/-! ## What an import is made of -/

/-- The node is a dotted name, or one that is given another name. -/
def Tree.IsListed (t : Tree) : Prop :=
  t.IsDottedName ∨ t.kind = .renamedImport ∧ (t.child? .rename).isSome = true

theorem Tree.IsListed.inField (h : t.IsListed) (field : Field) : (t.inField field).IsListed :=
  h.imp_left (·.inField field)

/-- The trees are names that an import lists, with commas and comments between them. -/
def AllListed (ts : List Tree) : Prop :=
  ∀ t ∈ ts, t.kind = .mark ∨ t.isExtra = true ∨ t.IsListed

theorem allListed_nil : AllListed [] := fun _ h => absurd h List.not_mem_nil

@[grind norm]
theorem allListed_append : AllListed (ts ++ us) ↔ AllListed ts ∧ AllListed us :=
  List.forall_mem_append

section Chunks

variable {chunks : List (List Tree)}

@[grind norm]
theorem allListed_flatten_nil : AllListed ([] : List (List Tree)).flatten := allListed_nil

@[grind norm]
theorem allListed_flatten_cons :
    AllListed (ts :: chunks).flatten ↔ AllListed ts ∧ AllListed chunks.flatten := by
  rw [List.flatten_cons, allListed_append]

@[grind norm]
theorem allListed_flatten_reverse :
    AllListed chunks.reverse.flatten ↔ AllListed chunks.flatten := by
  simp [AllListed]

end Chunks

/-- The first of the trees that plays a role, or could spell a module, is the module of an
import. -/
def LeadsToPath : List Tree → Prop
  | [] => False
  | t :: ts =>
    (t.field = some .moduleName ∧ t.IsPath) ∨
      (t.field = none ∧ t.isModulePath = false) ∧ LeadsToPath ts

theorem leadsToPath_append (hts : ∀ t ∈ ts, t.field = none ∧ t.isModulePath = false)
    (hus : LeadsToPath us) : LeadsToPath (ts ++ us) := by
  induction ts with
  | nil => exact hus
  | cons t ts ih =>
    obtain ⟨ht, hts⟩ := List.forall_mem_cons.mp hts
    exact .inr ⟨ht, ih hts⟩

/-- The module of an import is found by its role and by its kind. -/
theorem LeadsToPath.exists_path (h : LeadsToPath ts) : ∃ path,
    ts.find? (·.field == some .moduleName) = some path ∧ path.IsPath ∧
      ∃ names, (ts.filter Tree.isNamed).dropWhile (fun t => !t.isModulePath) = path :: names := by
  induction ts with
  | nil => cases h
  | cons t ts ih =>
    rcases h with ⟨hfield, hpath⟩ | ⟨⟨hfield, hnot⟩, hrest⟩
    · have hmodule := hpath.isModulePath
      have hnamed : t.isNamed = true := by
        rcases hpath with h | h
        · simp [Tree.isNamed, h.kind]
        · simp [Tree.isNamed, h.kind]
      refine ⟨t, List.find?_cons_of_pos (by rw [hfield]; rfl), hpath, ts.filter Tree.isNamed, ?_⟩
      rw [List.filter_cons_of_pos hnamed, List.dropWhile_cons_of_neg (by rw [hmodule]; decide)]
    · obtain ⟨path, hfind, hpath, names, hnames⟩ := ih hrest
      refine ⟨path, ?_, hpath, names, ?_⟩
      · rw [List.find?_cons_of_neg (by rw [hfield]; decide), hfind]
      · rw [List.filter_cons]
        split
        · rw [List.dropWhile_cons_of_pos (by rw [hnot]; rfl), hnames]
        · exact hnames

end SymbolAtlas.Python
