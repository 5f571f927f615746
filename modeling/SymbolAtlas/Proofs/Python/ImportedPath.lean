import SymbolAtlas.Proofs.Python.ReferenceOrder
import SymbolAtlas.Python.Outline
import SymbolAtlas.Usage

/-! # What an import reads off its path

An import keeps its module as the text of a path, gaps included. The level of a `from` import counts
the dots with which that text begins, and the name that a plain import binds ends where the text has
its first dot. A gap between the dots, or before the first dot of a dotted name, is read along.
-/

namespace SymbolAtlas

namespace Python

variable {c mid stop : Cursor} {d t u first : Tree} {ds ts : List Tree}

/-! ## Levels -/

/-- How many of the trees there are up to the first that does not stand right behind the one before
it. -/
def joinedLength : List Tree → Nat
  | [] => 0
  | [_] => 1
  | t :: u :: ts => if t.stop = u.start then joinedLength (u :: ts) + 1 else 1

theorem joinedLength_eq_length_iff :
    joinedLength ts = ts.length ↔ ts.IsChain fun t u => t.stop = u.start := by
  induction ts with
  | nil => simp [joinedLength]
  | cons t ts ih =>
    cases ts with
    | nil => simp [joinedLength]
    | cons u ts =>
      rw [joinedLength, List.isChain_cons_cons, ← ih]
      split
      · simp [*]
      · simp [*]

/-- A gap begins with no dot. -/
theorem Gap.takeWhile_slice (h : Gap c stop) : (c.slice stop).takeWhile (· == '.') = [] := by
  rcases h.undotted with rfl | hdot
  · rw [Cursor.slice_self, List.takeWhile_nil]
  · cases hslice : c.slice stop with
    | nil => rfl
    | cons ch cs =>
      rw [List.takeWhile_cons_of_neg]
      rintro hch
      exact hdot ((Cursor.head?_rest hslice).trans (congrArg some (beq_iff_eq.mp hch)))

theorem Tree.IsDot.slice_eq (h : d.IsDot) (hstop : d.stop.Reaches stop) :
    d.start.slice stop = '.' :: d.stop.slice stop := by
  obtain ⟨rest, hrest⟩ := List.head?_eq_some_iff.mp h.head
  rw [h.reaches.slice_append hstop, h.stop_eq, Cursor.slice_advance, hrest]
  rfl

theorem Tree.IsDot.text_eq (h : d.IsDot) : d.text = "." := by
  obtain ⟨rest, hrest⟩ := List.head?_eq_some_iff.mp h.head
  rw [Tree.text, Tree.chars, h.stop_eq, Cursor.slice_advance, hrest]
  rfl

theorem Dotted.isDot (h : Dotted c ds stop) (hd : d ∈ ds) : d.IsDot := by
  induction h with
  | one hfirst => exact List.mem_singleton.mp hd ▸ hfirst
  | cons hfirst _ _ ih =>
    rcases List.mem_cons.mp hd with rfl | hd
    · exact hfirst
    · exact ih hd

theorem Dotted.reaches (h : Dotted c ds stop) : c.Reaches stop := by
  induction h with
  | one hd => exact hd.reaches
  | cons hd hgap _ ih => exact (hd.reaches.trans hgap.reaches).trans ih

theorem Dotted.exists_cons (h : Dotted c ds stop) :
    ∃ d rest, ds = d :: rest ∧ d.IsDot ∧ d.start = c := by
  cases h with
  | one hd => exact ⟨_, _, rfl, hd, rfl⟩
  | cons hd _ _ => exact ⟨_, _, rfl, hd, rfl⟩

/-- A text that begins with dots has as many of them at its head as stand right behind one
another. -/
theorem Dotted.length_takeWhile (h : Dotted c ds mid) (hgap : Gap mid stop) :
    ((c.slice stop).takeWhile (· == '.')).length = joinedLength ds := by
  induction h with
  | one hd =>
    rw [hd.slice_eq hgap.reaches, List.takeWhile_cons_of_pos rfl, hgap.takeWhile_slice]
    rfl
  | @cons d ds next stop' hd hnext hds ih =>
    obtain ⟨e, rest, rfl, he, rfl⟩ := hds.exists_cons
    have hreaches := (hnext.reaches.trans hds.reaches).trans hgap.reaches
    rw [hd.slice_eq hreaches, List.takeWhile_cons_of_pos rfl, List.length_cons, joinedLength]
    rcases hnext.undotted with hjoined | hdot
    · rw [if_pos hjoined, hjoined, ih hgap]
    · have hapart : d.stop ≠ e.start := fun heq => hdot (by rw [heq, he.head])
      have hrest : Gap d.stop stop := ⟨hreaches, .inr hdot⟩
      rw [if_neg hapart, hrest.takeWhile_slice]
      rfl

theorem Tree.IsPath.relativeLevel_text (h : t.IsPath) :
    relativeLevel t.text = joinedLength t.prefixDots := by
  rw [relativeLevel, Tree.text, String.toList_ofList, Tree.chars]
  rcases h with h | h
  · have hgap : Gap t.start t.stop := ⟨h.reaches, .inr h.head⟩
    rw [hgap.takeWhile_slice, h.prefixDots_eq]
    rfl
  · obtain ⟨mid, hdots, hgap⟩ := h.dots
    exact hdots.length_takeWhile hgap

theorem Tree.IsPath.text_of_mem_prefixDots (h : t.IsPath) (hd : d ∈ t.prefixDots) :
    d.text = "." := by
  rcases h with h | h
  · rw [h.prefixDots_eq] at hd
    cases hd
  · obtain ⟨stop, hdots, -⟩ := h.dots
    exact (hdots.isDot hd).text_eq

/-! ## Bound names -/

/-- A text that begins with a name has the name for its first component if the name is all there is,
or a dot comes next. -/
theorem Tree.IsComponent.firstComponent_eq_iff (h : first.IsComponent) (cs : List Char) :
    firstComponent (String.ofList (first.chars ++ cs)) = first.text ↔
      cs.takeWhile (· != '.') = [] := by
  have hdot : ∀ c ∈ first.chars, (c != '.') = true := fun c hc => bne_iff_ne.mpr fun heq =>
    h.not_mem (c := '.') (by decide +kernel) (heq ▸ hc)
  rw [firstComponent, String.toList_ofList, List.takeWhile_append_of_pos hdot, Tree.text,
    String.ofList_inj, List.append_right_eq_self]

/-- Nothing stands before a dot exactly if it comes next. -/
theorem Gap.takeWhile_eq_nil_iff (h : Gap c d.start) (hd : d.IsDot) (hstop : d.stop.Reaches stop) :
    (c.slice stop).takeWhile (· != '.') = [] ↔ d.start = c := by
  constructor
  · intro hnil
    rcases h.undotted with rfl | hdot
    · rfl
    · have hslice := h.reaches.slice_append (hd.reaches.trans hstop)
      rw [hd.slice_eq hstop] at hslice
      cases hcs : c.slice stop with
      | nil => simp [hcs] at hslice
      | cons ch cs =>
        have hch : ch ≠ '.' := fun heq => hdot (heq ▸ Cursor.head?_rest hcs)
        simp [hcs, hch] at hnil
  · rintro rfl
    rw [hd.slice_eq hstop]
    rfl

/-- A dotted name is no star. Its text has the first component of the name for its own exactly if
the first dot stands right behind that. -/
theorem Tree.IsDottedName.exists_first (h : t.IsDottedName) : ∃ first,
    t.children.head? = some first ∧ first.kind = .identifier ∧ t.text ≠ "*" ∧
      (∀ dot ∈ t.firstDot?, dot.text = ".") ∧
      (firstComponent t.text = first.text ↔ ∀ dot ∈ t.firstDot?, dot.start = first.stop) := by
  obtain ⟨first, hhead, hbegins⟩ := h.first
  have hfirst := hbegins.component
  have hchars : t.chars = first.chars ++ first.stop.slice t.stop := by
    rw [Tree.chars, ← hbegins.start_eq, hfirst.reaches.slice_append hbegins.reaches]
    rfl
  refine ⟨first, hhead, hfirst.kind, fun hstar => ?_,
    fun dot hdot => (hbegins.dotted dot hdot).1.text_eq, ?_⟩
  · obtain ⟨ch, cs, hcs⟩ := List.exists_cons_of_ne_nil hfirst.chars_ne_nil
    have hstar' : t.chars = ['*'] := by
      rw [← String.toList_ofList (l := t.chars)]
      exact congrArg String.toList hstar
    rw [hchars, hcs, List.cons_append] at hstar'
    refine hfirst.not_mem (c := '*') (by decide +kernel) ?_
    rw [hcs, (List.cons.inj hstar').1]
    exact List.mem_cons_self
  · rw [Tree.text, hchars, hfirst.firstComponent_eq_iff]
    cases hfirstDot : t.firstDot? with
    | none =>
      rw [hbegins.alone hfirstDot, Cursor.slice_self]
      exact ⟨fun _ dot hmem => absurd hmem (Option.not_mem_none dot), fun _ => rfl⟩
    | some dot =>
      obtain ⟨hd, hgap, hstop⟩ := hbegins.dotted dot hfirstDot
      rw [hgap.takeWhile_eq_nil_iff hd hstop]
      exact ⟨fun h dot' hmem => Option.some.inj hmem ▸ h, fun h => h dot rfl⟩

/-! ## Import statements -/

/-- A `from` import makes one import, of the module that plays the role. -/
theorem importsHere_fromImport (hkind : t.kind = .fromImport) (h : LeadsToPath t.children) :
    ∃ path, t.child? .moduleName = some path ∧ path.IsPath ∧
      ∃ names, t.importsHere = [⟨.fromModule names, path.text, t.position⟩] := by
  obtain ⟨path, hfind, hpath, names, hnames⟩ := h.exists_path
  refine ⟨path, hfind, hpath, names.filterMap Tree.fromBinding?, ?_⟩
  rw [Tree.importsHere, hkind]
  dsimp only
  rw [Tree.namedChildren, hnames]

/-- A plain import that gives no other name is made by a dotted name. -/
theorem exists_dottedName (hkind : t.kind = .plainImport) (h : AllListed t.children) {i : Import}
    (hi : i ∈ t.importsHere) : ∃ b, i = ⟨.plain [b], b.name, t.position⟩ ∧
      (b.rename = none → ∃ path ∈ t.children, path.IsDottedName ∧ b = ⟨path.text, none⟩) := by
  rw [Tree.importsHere, hkind] at hi
  obtain ⟨b, hb, rfl⟩ := List.mem_map.mp hi
  obtain ⟨path, hpath, hbinding⟩ := List.mem_filterMap.mp hb
  obtain ⟨hmem, hnamed⟩ := List.mem_filter.mp hpath
  refine ⟨b, rfl, fun hrename => ⟨path, hmem, ?_⟩⟩
  rcases h path hmem with hmark | hextra | hname | ⟨hrenamed, hsome⟩
  · simp [Tree.isNamed, hmark] at hnamed
  · rw [Tree.isExtra, Bool.or_eq_true, beq_iff_eq, beq_iff_eq] at hextra
    rcases hextra with hextra | hextra <;> simp [Tree.binding?, hextra] at hbinding
  · rw [Tree.binding?, hname.kind] at hbinding
    exact ⟨hname, (Option.some.inj hbinding).symm⟩
  · obtain ⟨rename, hsome⟩ := Option.isSome_iff_exists.mp hsome
    simp only [Tree.binding?, hrenamed, hsome] at hbinding
    obtain ⟨name, -, hbinding⟩ := Option.bind_eq_some_iff.mp hbinding
    obtain ⟨-, -, hbinding⟩ := Option.bind_eq_some_iff.mp hbinding
    obtain rfl := Option.some.inj hbinding
    cases hrename

theorem Tree.level_futureImport (hkind : t.kind = .futureImport) :
    ∃ i, t.importsHere = [i] ∧ i.level? = some 0 := by
  refine ⟨⟨.fromModule (t.namedChildren.filterMap Tree.fromBinding?), "__future__", t.position⟩, ?_,
    congrArg some (by decide +kernel : relativeLevel "__future__" = 0)⟩
  rw [Tree.importsHere, hkind]

namespace Tree.Conforms

variable {source : List Char} {s : Tree}

/-- A `from` import has as many levels as dots stand right behind one another at the beginning of
its module. These are all the dots exactly if nothing stands between them. -/
theorem level_fromImport (h : s.Conforms source) (hkind : s.kind = .fromImport) :
    ∃ path i, s.child? .moduleName = some path ∧ s.importsHere = [i] ∧ i.source = path.text ∧
      (∀ d ∈ path.prefixDots, d.text = ".") ∧ i.level? = some (joinedLength path.prefixDots) ∧
      (i.level? = some path.prefixDots.length ↔
        path.prefixDots.IsChain fun d e => d.stop = e.start) := by
  obtain ⟨path, hpath, hwritten, names, himports⟩ :=
    importsHere_fromImport hkind (h.hasParts.fromImport hkind)
  have hlevel : Import.level? ⟨.fromModule names, path.text, s.position⟩ =
      some (joinedLength path.prefixDots) := congrArg some hwritten.relativeLevel_text
  refine ⟨path, _, hpath, himports, rfl, fun d hd => hwritten.text_of_mem_prefixDots hd, hlevel, ?_⟩
  rw [hlevel, Option.some_inj, joinedLength_eq_length_iff]

/-- A plain import that gives no other name binds the first component of the name it lists exactly
if nothing stands between that and the dot after it. -/
theorem localName_plainImport (h : s.Conforms source) (hkind : s.kind = .plainImport) {i : Import}
    (hi : i ∈ s.importsHere) : ∃ b, i.clause = .plain [b] ∧
      (b.rename = none → ∃ path ∈ s.children, path.kind = .dottedName ∧ b.name = path.text ∧
        ∃ first, path.children.head? = some first ∧ first.kind = .identifier ∧
          (∀ dot ∈ path.firstDot?, dot.text = ".") ∧
          (b.localName? i.clause = some first.text ↔
            ∀ dot ∈ path.firstDot?, dot.start = first.stop)) := by
  obtain ⟨b, rfl, hb⟩ := exists_dottedName hkind (h.hasParts.plainImport hkind) hi
  refine ⟨b, rfl, fun hrename => ?_⟩
  obtain ⟨path, hpath, hname, rfl⟩ := hb hrename
  obtain ⟨first, hfirst, hidentifier, hstar, hdot, hiff⟩ := hname.exists_first
  refine ⟨path, hpath, hname.kind, rfl, first, hfirst, hidentifier, hdot, ?_⟩
  rw [Binding.localName?, Option.filter_none]
  dsimp only
  rw [if_neg hstar, Option.some_inj, hiff]

end Tree.Conforms

/-- In the tree of a source every `from` import has as many levels as dots stand right behind one
another at the beginning of its module. These are all the dots exactly if nothing stands between
them. A plain import that gives no other name binds the first component of the name it lists exactly
if nothing stands between that and the dot after it. -/
theorem importsHere_paths {content : String} {tree : Tree} (htree : syntaxTree content = .ok tree) :
    ∀ s ∈ tree.nodes,
      (s.kind = .fromImport → ∃ path i, s.child? .moduleName = some path ∧ s.importsHere = [i] ∧
        i.source = path.text ∧ (∀ d ∈ path.prefixDots, d.text = ".") ∧
        i.level? = some (joinedLength path.prefixDots) ∧
        (i.level? = some path.prefixDots.length ↔
          path.prefixDots.IsChain fun d e => d.stop = e.start)) ∧
      (s.kind = .futureImport → ∃ i, s.importsHere = [i] ∧ i.level? = some 0) ∧
      (s.kind = .plainImport → ∀ i ∈ s.importsHere, ∃ b, i.clause = .plain [b] ∧
        (b.rename = none → ∃ path ∈ s.children, path.kind = .dottedName ∧ b.name = path.text ∧
          ∃ first, path.children.head? = some first ∧ first.kind = .identifier ∧
            (∀ dot ∈ path.firstDot?, dot.text = ".") ∧
            (b.localName? i.clause = some first.text ↔
              ∀ dot ∈ path.firstDot?, dot.start = first.stop))) := by
  intro s hs
  have hconforms := (syntaxTree_reads htree).1 s hs
  exact ⟨hconforms.level_fromImport, Tree.level_futureImport,
    fun hkind _ => hconforms.localName_plainImport hkind⟩

/-- Two dots side by side are two levels, and a dot right behind a name ends what is bound, whatever
stands after them. -/
theorem importsHere_paths_apart :
    ∃ tree, syntaxTree "from .. \\\n a import b\nimport os. path\n" = .ok tree ∧
      (∃ s ∈ tree.nodes, ∃ path i, s.child? .moduleName = some path ∧ s.importsHere = [i] ∧
        path.text = ".. \\\n a" ∧ path.prefixDots.length = 2 ∧ i.level? = some 2) ∧
      ∃ s ∈ tree.nodes, ∃ i ∈ s.importsHere, ∃ b, i.clause = .plain [b] ∧ b.name = "os. path" ∧
        b.localName? i.clause = some "os" := by
  obtain ⟨tree, htree, ⟨s, hs, hkind, hpath⟩, s', hs', hkind', hmade, hnames⟩ :=
    @exists_syntaxTree "from .. \\\n a import b\nimport os. path\n"
      (fun tree => (∃ s ∈ tree.nodes, s.kind = .fromImport ∧
          (s.child? .moduleName).any (fun path => path.text = ".. \\\n a" ∧
            path.prefixDots.length = 2 ∧ joinedLength path.prefixDots = 2) = true) ∧
        ∃ s ∈ tree.nodes, s.kind = .plainImport ∧
          s.importsHere = [⟨.plain [⟨"os. path", none⟩], "os. path", ⟨3, 1⟩⟩] ∧
          ∀ path ∈ s.children, path.kind = .dottedName → ∀ first ∈ path.children.head?,
            first.text = "os" ∧ path.firstDot?.all (·.start = first.stop) = true) _
      (by decide +kernel)
  obtain ⟨path, i, hfound, hhere, -, -, hlevel, -⟩ := (importsHere_paths htree s hs).1 hkind
  rw [hfound] at hpath
  obtain ⟨htext, hlength, hjoined⟩ := of_decide_eq_true hpath
  have hi : (⟨.plain [⟨"os. path", none⟩], "os. path", ⟨3, 1⟩⟩ : Import) ∈ s'.importsHere := by
    rw [hmade]
    exact List.mem_singleton_self _
  obtain ⟨b, hb, hbound⟩ := (importsHere_paths htree s' hs').2.2 hkind' _ hi
  obtain rfl : ⟨"os. path", none⟩ = b := (List.cons.inj (ImportClause.plain.inj hb)).1
  obtain ⟨path', hpath', hdotted, -, first, hfirst, -, -, hiff⟩ := hbound rfl
  obtain ⟨hos, hdot⟩ := hnames path' hpath' hdotted first hfirst
  refine ⟨tree, htree, ⟨s, hs, path, i, hfound, hhere, htext, hlength, hjoined ▸ hlevel⟩,
    s', hs', _, hi, _, rfl, rfl, ?_⟩
  rw [← hos, hiff]
  exact fun dot hmem => of_decide_eq_true ((Option.all_eq_true ..).mp hdot dot hmem)

/-- A path with a blank between its two dots is given one level, and with a blank before the dot
`os . path` binds no `os`: the import counts as unused where `os` is read. -/
theorem exists_path_misread :
    (∃ tree, syntaxTree "from . .pkg import x\n" = .ok tree ∧
      ∃ s ∈ tree.nodes, ∃ path i, s.child? .moduleName = some path ∧ s.importsHere = [i] ∧
        path.prefixDots.length = 2 ∧ i.level? = some 1) ∧
    ∃ tree, syntaxTree "import os . path\nos.getcwd()\n" = .ok tree ∧
      (∃ s ∈ tree.nodes, ∃ path ∈ s.children, ∃ first ∈ path.children, ∃ b : Binding,
        b.name = path.text ∧ s.importsHere.map Import.clause = [.plain [b]] ∧ first.text = "os" ∧
        b.localName? (.plain [b]) = some "os ") ∧
      "os" ∈ tree.references.map Reference.name ∧
      (treeOutline "import os . path\nos.getcwd()\n" tree).unusedImports.map Import.source =
        ["os . path"] := by
  constructor
  · obtain ⟨tree, htree, s, hs, hpath, hhere⟩ := @exists_syntaxTree "from . .pkg import x\n"
      (fun tree => ∃ s ∈ tree.nodes,
        (s.child? .moduleName).any (fun path => path.prefixDots.length = 2) = true ∧
        s.importsHere = [⟨.fromModule [⟨"x", none⟩], ". .pkg", ⟨1, 1⟩⟩]) _ (by decide +kernel)
    obtain ⟨path, hfound, hlength⟩ := (Option.any_eq_true ..).mp hpath
    exact ⟨tree, htree, s, hs, path, _, hfound, hhere, of_decide_eq_true hlength, by decide +kernel⟩
  · obtain ⟨tree, htree, ⟨s, hs, path, hpath, first, hfirst, htext, hclauses, hos⟩, hread,
        hunused⟩ :=
      @exists_syntaxTree "import os . path\nos.getcwd()\n"
        (fun tree => (∃ s ∈ tree.nodes, ∃ path ∈ s.children, ∃ first ∈ path.children,
            path.text = "os . path" ∧
            s.importsHere.map Import.clause = [.plain [⟨"os . path", none⟩]] ∧
            first.text = "os") ∧
          "os" ∈ tree.references.map Reference.name ∧
          (treeOutline "import os . path\nos.getcwd()\n" tree).unusedImports.map Import.source =
            ["os . path"]) _
        (by decide +kernel)
    exact ⟨tree, htree, ⟨s, hs, path, hpath, first, hfirst, ⟨"os . path", none⟩, htext.symm,
      hclauses, hos, by decide +kernel⟩, hread, hunused⟩

end Python

end SymbolAtlas
