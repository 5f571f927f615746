import SymbolAtlas.Proofs.Python.ModulePath
import SymbolAtlas.Proofs.Python.Specification
import SymbolAtlas.Proofs.Python.WholeWord
import SymbolAtlas.Python.Grammar.SimpleStatement

/-! # Reading module paths

What the parsers of imports read are module paths as the grammar lays them down: between two tokens
there is a gap. The state behind a token remembers where that ended, up to the next token.
-/

namespace SymbolAtlas.Python

open Std.Do Parse Grammar

set_option mvcgen.warning false

variable {c stop : Cursor} {s s' : State} {t : Tree} {ts : List Tree}

/-! ## Behind a token -/

/-- Blanks begin with no dot. -/
theorem head_ne_dot (c : Cursor)
    (h : (c.advance (c.rest.takeWhile isFiller).length).rest.head? ≠ some '.') :
    c.rest.head? ≠ some '.' := by
  intro hdot
  obtain ⟨rest, hrest⟩ := List.head?_eq_some_iff.mp hdot
  rw [hrest] at h
  exact h hdot

theorem continuation_ne_dot {cs : List Char} {n : Nat} (h : continuationLength? cs = some n) :
    cs.head? ≠ some '.' := by
  intro hdot
  obtain ⟨rest, rfl⟩ := List.head?_eq_some_iff.mp hdot
  cases h

/-- Before a token of characters there is a gap. -/
theorem gap_look {demand : Demand} {n : Nat} (h : (s.look demand n).ahead = .characters) :
    Gap s.stop (s.look demand n).start := by
  induction n generalizing s with
  | zero => cases h
  | succ n ih =>
    have hextra (s' : State) (hreaches : s.stop.Reaches s'.stop)
        (hhead : s.stop.rest.head? ≠ some '.') (h : (s'.look demand n).ahead = .characters) :
        Gap s.stop (s'.look demand n).start := ⟨hreaches.trans (ih h).reaches, .inr hhead⟩
    rw [State.look] at h ⊢
    dsimp only at h ⊢
    split at h
    · cases h
    · split at h
      · cases h
      · split at h
        · cases h
        · -- a comment
          rename_i hrest
          refine hextra _ ((Cursor.Reaches.advance _ _).trans (.advance _ _)) ?_ h
          exact head_ne_dot _ (by rw [hrest, List.head?_cons]; decide)
        · split at h
          · -- a joining backslash
            rename_i hlength
            refine hextra _ ((Cursor.Reaches.advance _ _).trans (.advance _ _)) ?_ h
            exact head_ne_dot _ (continuation_ne_dot hlength)
          · refine ⟨.advance _ _, ?_⟩
            dsimp only
            cases hblanks : s.stop.rest.takeWhile isFiller with
            | nil => exact .inl rfl
            | cons b bs =>
              refine .inr fun hdot => ?_
              obtain ⟨rest, hrest⟩ := List.head?_eq_some_iff.mp hdot
              rw [hrest] at hblanks
              cases hblanks

theorem AllExtra.allListed (h : AllExtra ts) : AllListed ts := fun t ht => .inr (.inl (h t ht).1)

/-- Before a token only comments and joining backslashes wait. -/
theorem allExtra_look {demand : Demand} {n : Nat} (h : AllExtra s.extras) :
    AllExtra (s.look demand n).extras := by
  induction n generalizing s with
  | zero => exact h
  | succ n ih =>
    rw [State.look]
    dsimp only
    split
    · exact h
    · split
      · exact h
      · split
        · exact h
        · exact ih (h.concat_leaf _ _ rfl)
        · split
          · exact ih (h.concat_leaf _ _ rfl)
          · exact h

/-- The state stands behind a token that ends at `c`. -/
structure Behind (c : Cursor) (s : State) : Prop where
  extras : AllExtra s.extras
  gap : s.ahead = .characters → Gap c s.start

/-- The word that comes next as a name. -/
theorem isComponent_word (h : s.word ≠ "") :
    (Tree.leaf .identifier s.start (s.start.advance s.word.length)).IsComponent ∧
      s.ahead = .characters := by
  have hword : wordOf s.chars ≠ [] := fun hnil => h (by rw [State.word, hnil])
  obtain ⟨hchars, hahead⟩ := chars_eq fun hnil => hword (by rw [hnil]; rfl)
  have hslice : (Tree.leaf .identifier s.start (s.start.advance s.word.length)).chars =
      wordOf s.chars := by
    rw [Tree.chars, Tree.leaf, Cursor.slice_advance, State.word, String.length_ofList, hchars,
      take_wordOf]
  refine ⟨⟨rfl, .advance _ _, by rwa [hslice], fun c hc => ?_⟩, hahead⟩
  rw [hslice, wordOf_eq hword] at hc
  exact List.mem_takeWhile_imp hc

/-- The dot that comes next. -/
theorem isDot_mark (h : s.isAt "." = true) :
    (Tree.leaf .mark s.start (s.start.advance 1)).IsDot ∧ s.ahead = .characters := by
  obtain ⟨rest, hrest⟩ := List.isPrefixOf_iff_prefix.mp h
  obtain ⟨hchars, hahead⟩ := chars_eq fun hnil => List.cons_ne_nil _ _ (hrest.trans hnil)
  rw [hchars] at hrest
  exact ⟨⟨rfl, by rw [Tree.leaf, ← hrest]; rfl, rfl⟩, hahead⟩

@[local spec]
theorem Parse.take_behind (kind : Kind) (n : Nat) (demand : Demand) (s₀ : State) :
    ⦃fun s => ⌜s = s₀⌝⦄ take kind n demand
    ⦃⇓? t s' => ⌜t = .leaf kind s₀.start (s₀.start.advance n) ∧ Behind t.stop s'⌝⦄ := by
  refine triple_iff.mpr fun s t s' hs hrun => ?_
  subst hs
  cases hrun
  exact ⟨rfl, allExtra_look allExtra_nil, gap_look⟩

@[local spec]
theorem Parse.name_behind (demand : Demand) (s₀ : State) :
    ⦃fun s => ⌜s = s₀⌝⦄ name demand
    ⦃⇓? t s' => ⌜t.IsComponent ∧ t.start = s₀.start ∧ s₀.ahead = .characters ∧
      Behind t.stop s'⌝⦄ := by
  mvcgen [name, query, require]
  rename_i s hs hword t s'
  rintro rfl hbehind
  obtain ⟨hcomponent, hahead⟩ := isComponent_word (bne_iff_ne.mp hword)
  subst hs
  exact ⟨hcomponent, rfl, hahead, hbehind⟩

@[local spec]
theorem Parse.dot_behind (demand : Demand) (s₀ : State) :
    ⦃fun s => ⌜s = s₀⌝⦄ mark "." demand
    ⦃⇓? ts s' => ⌜∃ d : Tree, ts = s₀.extras ++ [d] ∧ d.IsDot ∧ d.start = s₀.start ∧
      s₀.ahead = .characters ∧ Behind d.stop s'⌝⦄ := by
  mvcgen [mark, query, require, token, extras]
  rename_i s hs hat t s' htake
  obtain ⟨rfl, hbehind⟩ := htake
  obtain ⟨hdot, hahead⟩ := isDot_mark hat
  subst hs
  exact ⟨_, rfl, hdot, rfl, hahead, hbehind⟩

/-! ## Paths -/

@[local spec]
theorem Grammar.dottedName_behind (after : Demand) (s₀ : State) :
    ⦃fun s => ⌜s = s₀⌝⦄ dottedName after
    ⦃⇓? t s' => ⌜t.IsDottedName ∧ t.start = s₀.start ∧ s₀.ahead = .characters ∧
      Behind t.stop s'⌝⦄ := by
  -- What has been read so far is a dotted name by itself, which a dot and a name extend.
  have hloop := @loop_spec (List (List Tree)) fun chunks _ chunks' s =>
    (Tree.node .dottedName chunks'.reverse.flatten).IsDottedName ∧
      (Tree.node .dottedName chunks'.reverse.flatten).start =
        (Tree.node .dottedName chunks.reverse.flatten).start ∧
      Behind (Tree.node .dottedName chunks'.reverse.flatten).stop s
  mvcgen [dottedName, query, child, extras, hloop]
  case vc1.hstep.isTrue.post.success.post.success =>
    clear hloop
    rename_i first s₁ hfirst chunks s hs hat ts s₂ hdot u s₃ hu
    obtain ⟨hname, hstart, hbehind⟩ := hs
    obtain ⟨d, rfl, hd, hdstart, hahead, hbehind'⟩ := hdot
    obtain ⟨hu, hustart, hahead', hbehind''⟩ := hu
    have hflatten : ((s₂.extras ++ [u]) :: (s.extras ++ [d]) :: chunks).reverse.flatten =
        chunks.reverse.flatten ++ (s.extras ++ [d]) ++ (s₂.extras ++ [u]) := by
      simp
    have hne : chunks.reverse.flatten ≠ [] := hname.children_ne_nil
    rw [hflatten]
    refine ⟨hname.concat (fun t ht => (hbehind.extras t ht).1) (hdstart ▸ hbehind.gap hahead) hd
      (hustart ▸ hbehind'.gap hahead') hu, ?_, ?_⟩
    · rw [List.append_assoc, Tree.node_start_append hne, hstart]
    · rwa [← List.append_assoc, Tree.node_stop_concat]
  case vc3.post.success.pre =>
    clear hloop
    rename_i s hs first s' hfirst
    exact ⟨trivial, Tree.isDottedName_singleton hfirst.1, trivial, hfirst.2.2.2⟩
  case vc4.post.success.post.success =>
    clear hloop
    rename_i s hs first s' hfirst chunks s'' hname
    subst hs
    exact ⟨hname.1, hname.2.1.trans hfirst.2.1, hfirst.2.2.1, hname.2.2⟩

@[local spec]
theorem Grammar.importPrefix_behind (s₀ : State) :
    ⦃fun s => ⌜s = s₀ ∧ s.isAt "." = true⌝⦄ importPrefix
    ⦃⇓? t s' => ⌜t.IsPrefix ∧ Behind t.stop s'⌝⦄ := by
  have hloop := @loop_spec (List Tree) fun _ _ dots s =>
    (Tree.node .importPrefix dots.reverse).IsPrefix ∧
      Behind (Tree.node .importPrefix dots.reverse).stop s
  mvcgen [importPrefix, query, hloop]
  case vc1.hstep.isTrue.post.success =>
    clear hloop
    rename_i dots s hs hat ts s' hdot
    obtain ⟨hread, hbehind⟩ := hs
    obtain ⟨d, rfl, hd, hdstart, hahead, hbehind'⟩ := hdot
    rw [List.reverse_append, List.reverse_reverse]
    refine ⟨hread.concat (fun t ht => (hbehind.extras t ht).1) (hdstart ▸ hbehind.gap hahead) hd,
      ?_⟩
    rwa [← List.append_assoc, Tree.node_stop_concat]
  case vc3.post.success.pre =>
    clear hloop
    rename_i s hs d s' hd
    obtain ⟨rfl, hbehind⟩ := hd
    exact ⟨trivial, Tree.isPrefix_singleton (isDot_mark hs.2).1, hbehind⟩

@[local spec]
theorem Grammar.relativeImport_behind (s₀ : State) :
    ⦃fun s => ⌜s = s₀ ∧ s.isAt "." = true⌝⦄ relativeImport
    ⦃⇓? t s' => ⌜t.IsRelative ∧ AllExtra s'.extras⌝⦄ := by
  mvcgen [relativeImport, child, extras]
  case vc1.pre => exact ⟨trivial, ‹_ ∧ _›.2⟩
  case vc2.post.success.isTrue =>
    rename_i dots s hdots _
    exact ⟨hdots.1.isRelative (.refl _), hdots.2.extras⟩
  case vc3.post.success.isFalse.post.success =>
    rename_i dots s hdots _ path s' hpath
    obtain ⟨hread, hbehind⟩ := hdots
    obtain ⟨hname, hstart, hahead, hbehind'⟩ := hpath
    have hgap : Gap dots.stop path.start := hstart ▸ hbehind.gap hahead
    refine ⟨hread.isRelative ?_, hbehind'.extras⟩
    rw [← List.cons_append, Tree.node_stop_concat]
    exact hgap.trans hname.reaches hname.head

/-! ## Imports -/

/-- Behind a keyword only comments and joining backslashes wait. -/
@[local spec]
theorem Parse.keyword_behind (word : String) (demand : Demand) (s₀ : State) :
    ⦃fun s => ⌜s = s₀⌝⦄ keyword word demand ⦃⇓? _ s' => ⌜AllExtra s'.extras⌝⦄ := by
  mvcgen [keyword, query, require, token, extras]
  exact ‹_ ∧ Behind _ _›.2.extras

@[local spec]
theorem Parse.comma_behind (demand : Demand) (s₀ : State) :
    ⦃fun s => ⌜s = s₀ ∧ AllExtra s.extras⌝⦄ mark "," demand
    ⦃⇓? ts s' => ⌜AllListed ts ∧ AllExtra s'.extras⌝⦄ := by
  mvcgen [mark, query, require, token, extras]
  rename_i s hs hat comma s' htake
  obtain ⟨rfl, hbehind⟩ := htake
  exact ⟨allListed_append.mpr ⟨hs.2.allListed, List.forall_mem_singleton.mpr (.inl rfl)⟩,
    hbehind.extras⟩

@[local spec]
theorem Grammar.importedName_behind (after : Demand) (s₀ : State) :
    ⦃fun s => ⌜s = s₀⌝⦄ importedName after
    ⦃⇓? t s' => ⌜t.IsListed ∧ AllExtra s'.extras⌝⦄ := by
  mvcgen [importedName, query, childAs, child, extras]
  case vc1.post.success.isTrue.post.success.post.success =>
    rename_i path s₁ _ _ word s₂ _ rename s₃ hrename
    refine ⟨.inr ⟨rfl, List.find?_isSome.mpr ⟨rename.inField .rename, ?_, rfl⟩⟩,
      hrename.2.2.2.extras⟩
    exact List.mem_append_right _ (List.mem_append_right _ List.mem_cons_self)
  case vc2.post.success.isFalse =>
    rename_i path s₁ hpath _
    exact ⟨.inl hpath.1, hpath.2.2.2.extras⟩

@[local spec]
theorem Grammar.listedName_behind (after : Demand) (s₀ : State) :
    ⦃fun s => ⌜s = s₀ ∧ AllExtra s.extras⌝⦄ childAs .name (importedName after)
    ⦃⇓? ts s' => ⌜AllListed ts ∧ AllExtra s'.extras⌝⦄ := by
  mvcgen [childAs, child, extras]
  rename_i s hs t s' ht
  exact ⟨allListed_append.mpr ⟨hs.2.allListed,
    List.forall_mem_singleton.mpr (.inr (.inr (ht.1.inField .name)))⟩, ht.2⟩

@[local spec]
theorem Grammar.importList_behind (after : Demand) (s₀ : State) :
    ⦃fun s => ⌜s = s₀ ∧ AllExtra s.extras⌝⦄ importList after
    ⦃⇓? ts _ => ⌜AllListed ts⌝⦄ := by
  have hloop := @loop_spec (List (List Tree) × Nat × Bool) fun _ _ list s =>
    AllListed list.1.reverse.flatten ∧ AllExtra s.extras
  mvcgen [importList, items, itemsAfter, query, hloop]
  all_goals grind -ring -linarith

/-- A plain import is a keyword and what it lists. -/
theorem Grammar.plainImport_listed :
    ⦃fun _ => ⌜True⌝⦄ plainImport ⦃⇓? t _ => ⌜AllListed t.children⌝⦄ := by
  mvcgen [plainImport]
  case vc1.post.success.pre => exact ⟨trivial, ‹_ ∧ Behind _ _›.2.extras⟩
  case vc2.post.success.post.success =>
    rename_i word _ hword ts _ hts
    obtain ⟨rfl, -⟩ := hword
    exact List.forall_mem_cons.mpr ⟨.inl rfl, hts⟩

/-- Only a keyword and what waits behind it stand before the module of an import. -/
theorem leadsToPath_fromImport {word path : Tree} {es us : List Tree} {start stop : Cursor}
    (hword : word = .leaf .mark start stop) (hes : AllExtra es) (hpath : path.IsPath) :
    LeadsToPath (word :: (es ++ [path.inField .moduleName]) ++ ts ++ us) := by
  have hfront : ∀ t ∈ word :: es, t.field = none ∧ t.isModulePath = false := by
    refine List.forall_mem_cons.mpr ⟨by rw [hword]; exact ⟨rfl, rfl⟩, fun t ht => ?_⟩
    exact ⟨(hes t ht).2, Tree.isModulePath_of_isExtra (hes t ht).1⟩
  have hchildren : word :: (es ++ [path.inField .moduleName]) ++ ts ++ us =
      (word :: es) ++ path.inField .moduleName :: (ts ++ us) := by
    simp
  rw [hchildren]
  exact leadsToPath_append hfront (.inl ⟨rfl, hpath.inField .moduleName⟩)

theorem Grammar.fromImport_leadsToPath :
    ⦃fun _ => ⌜True⌝⦄ fromImport
    ⦃⇓? t _ => ⌜t.kind = .fromImport → LeadsToPath t.children⌝⦄ := by
  have hnames : ⦃fun _ => ⌜True⌝⦄ importNames ⦃⇓? _ _ => ⌜True⌝⦄ :=
    triple_iff.mpr fun _ _ _ _ _ => trivial
  mvcgen [fromImport, query, childAs, child, extras, token, hnames]
  case vc1.post.success.isTrue.post.success.post.success.success => exact nofun
  case vc3.post.success.isFalse.isTrue.post.success.post.success.isTrue.post.success =>
    rename_i _ _ _ hword _ _ _ _ hpath _ _ _ _ _ _ _ _
    exact fun _ => leadsToPath_fromImport hword.1 hword.2.extras (.inr hpath.1)
  case vc4.post.success.isFalse.isTrue.post.success.post.success.isFalse.success =>
    rename_i _ _ _ hword _ _ _ _ hpath _ _ _ _ _ _ _
    exact fun _ => leadsToPath_fromImport hword.1 hword.2.extras (.inr hpath.1)
  case vc5.post.success.isFalse.isFalse.post.success.post.success.isTrue.post.success =>
    rename_i _ _ _ hword _ _ _ _ hpath _ _ _ _ _ _ _ _
    exact fun _ => leadsToPath_fromImport hword.1 hword.2.extras (.inl hpath.1)
  case vc6.post.success.isFalse.isFalse.post.success.post.success.isFalse.success =>
    rename_i _ _ _ hword _ _ _ _ hpath _ _ _ _ _ _ _
    exact fun _ => leadsToPath_fromImport hword.1 hword.2.extras (.inl hpath.1)

end SymbolAtlas.Python
