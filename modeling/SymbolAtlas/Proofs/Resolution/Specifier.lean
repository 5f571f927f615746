import SymbolAtlas.Proofs.Path.Ending
import SymbolAtlas.Proofs.Path.Name
import SymbolAtlas.Proofs.Resolution.DirectMatch

/-! # Relative names that lead to a file

The way from one directory to another goes some levels up and then some names down. Written with
slashes or with dots, it is a relative name whose target, seen from any file of the first
directory, is the file without its extension; so the file is found when nothing else matches.
-/

namespace SymbolAtlas.Resolution

open SymbolAtlas.Path

/-- How many levels the way from one directory to another goes up, and the names that it then
goes down. -/
def way : List Name → List Name → Nat × List Name
  | here :: heres, there :: theres =>
    if here = there then way heres theres else (heres.length + 1, there :: theres)
  | heres, theres => (heres.length, theres)

theorem exists_common_of_way (here there : List Name) :
    ∃ common up, here = common ++ up ∧ there = common ++ (way here there).2 ∧
      (way here there).1 = up.length := by
  induction here generalizing there with
  | nil => exact ⟨[], [], rfl, rfl, rfl⟩
  | cons n here ih =>
    cases there with
    | nil => exact ⟨[], n :: here, rfl, rfl, rfl⟩
    | cons m there =>
      rw [way]
      by_cases heq : n = m
      · obtain ⟨common, up, hhere, hthere, hlength⟩ := ih there
        rw [if_pos heq]
        exact ⟨n :: common, up, by rw [hhere]; rfl,
          by rw [heq, List.cons_append, ← hthere], hlength⟩
      · rw [if_neg heq]
        exact ⟨[], n :: here, rfl, rfl, rfl⟩

def slashPath (levels : Nat) (down : List (List Char)) : List Char :=
  (if levels = 0 then ['.', '/'] else (List.replicate levels ['.', '.', '/']).flatten) ++
    joinWith ['/'] down

def dottedPath (levels : Nat) (down : List (List Char)) : List Char :=
  List.replicate (levels + 1) '.' ++ joinWith ['.'] down

def downTo (here there : List Name) (stem : List Char) : List (List Char) :=
  (way here there).2.map Name.text ++ [stem]

/-- The relative name, with slashes, that leads from a directory to a file in another one. -/
def slashSpecifier (here there : List Name) (stem : List Char) : String :=
  String.ofList (slashPath (way here there).1 (downTo here there stem))

def dottedSpecifier (here there : List Name) (stem : List Char) : String :=
  String.ofList (dottedPath (way here there).1 (downTo here there stem))

/-! ## Both notations name one path -/

theorem slash_mem_slashPath (levels : Nat) (down : List (List Char)) :
    '/' ∈ slashPath levels down := by
  cases levels with
  | zero => simp [slashPath]
  | succ levels => simp [slashPath, List.replicate_succ]

theorem ofSpecifier_slashPath (levels : Nat) (down : List (List Char)) :
    ofSpecifier (slashPath levels down) = slashPath levels down := by
  have hslash : (slashPath levels down).contains '/' = true :=
    List.contains_iff_mem.mpr (slash_mem_slashPath levels down)
  simp only [ofSpecifier, hslash, Bool.true_or, if_true]

theorem ofModule_of_not_mem {piece : List Char} (h : '.' ∉ piece) : ofModule piece = piece :=
  map_replace_of_not_mem h

theorem ofModule_append (cs ds : List Char) : ofModule (cs ++ ds) = ofModule cs ++ ofModule ds :=
  List.map_append

theorem ofModule_joinWith {pieces : List (List Char)} (h : ∀ piece ∈ pieces, '.' ∉ piece) :
    ofModule (joinWith ['.'] pieces) = joinWith ['/'] pieces := by
  induction pieces with
  | nil => rfl
  | cons piece pieces ih =>
    have hpiece := ofModule_of_not_mem (h piece List.mem_cons_self)
    by_cases hnil : pieces = []
    · rw [hnil, joinWith_singleton, joinWith_singleton, hpiece]
    · rw [joinWith_cons hnil, joinWith_cons hnil, ofModule_append, ofModule_append, hpiece,
        ih fun p hp => h p (List.mem_cons_of_mem piece hp)]
      rfl

/-- Whether a dotted module name can hold a segment: no dot splits it, and no line break ends the
name early. -/
def IsComponent (segment : List Char) : Prop :=
  ∀ c ∈ segment, c ≠ '.' ∧ isLineBreak c = false

section DottedPath

variable {down : List Name} (h : ∀ n ∈ down, IsComponent n.text)
include h

theorem not_dot_of_isComponent : ∀ piece ∈ down.map Name.text, '.' ∉ piece := by
  rw [List.forall_mem_map]
  exact fun n hn hmem => (h n hn '.' hmem).1 rfl

theorem head?_joinWith_dot (hne : down ≠ []) :
    ∃ c cs, joinWith ['.'] (down.map Name.text) = c :: cs ∧ c ≠ '.' := by
  obtain ⟨n, down, rfl⟩ := List.exists_cons_of_ne_nil hne
  obtain ⟨c, cs, hc⟩ := List.exists_cons_of_ne_nil n.ne_nil
  have hdot := (h n List.mem_cons_self c (hc ▸ List.mem_cons_self)).1
  by_cases hnil : down = []
  · exact ⟨c, cs, by rw [hnil, List.map_singleton, joinWith_singleton, hc], hdot⟩
  · exact ⟨c, _, by
      rw [List.map_cons, joinWith_cons (by simpa using hnil), hc, List.append_assoc,
        List.cons_append], hdot⟩

theorem char_joinWith_dot {c : Char} (hc : c ∈ joinWith ['.'] (down.map Name.text)) :
    c ≠ '/' ∧ isLineBreak c = false := by
  rcases mem_joinWith hc with hc | ⟨_, htext, hc⟩
  · rw [List.mem_singleton.mp hc]
    decide
  · obtain ⟨n, hn, rfl⟩ := List.mem_map.mp htext
    refine ⟨?_, (h n hn c hc).2⟩
    rintro rfl
    exact n.not_slash hc

theorem ofSpecifier_dottedPath (hne : down ≠ []) (levels : Nat) :
    ofSpecifier (dottedPath levels (down.map Name.text)) =
      slashPath levels (down.map Name.text) := by
  obtain ⟨c, cs, hrest, hdot⟩ := head?_joinWith_dot h hne
  have hdots : (dottedPath levels (down.map Name.text)).takeWhile (· == '.') =
      List.replicate (levels + 1) '.' := by
    rw [dottedPath, hrest, List.takeWhile_append_of_pos (by simp),
      List.takeWhile_cons_of_neg (by simpa using hdot), List.append_nil]
  have hdrop : (dottedPath levels (down.map Name.text)).drop (levels + 1) =
      joinWith ['.'] (down.map Name.text) :=
    List.drop_left' List.length_replicate
  have hslash : (dottedPath levels (down.map Name.text)).contains '/' = false := by
    rw [Bool.eq_false_iff, ne_eq, List.contains_iff_mem, dottedPath, List.mem_append]
    rintro (hmem | hmem)
    · exact absurd (List.eq_of_mem_replicate hmem) (by decide)
    · exact (char_joinWith_dot h hmem).1 rfl
  have hbreak : (joinWith ['.'] (down.map Name.text)).any isLineBreak = false := by
    rw [List.any_eq_false]
    intro c hc
    rw [(char_joinWith_dot h hc).2]
    exact Bool.false_ne_true
  simp only [ofSpecifier, hdots, List.length_replicate, hdrop, hslash, hbreak, Bool.or_false,
    Bool.false_eq_true, if_false, ofModule_joinWith (not_dot_of_isComponent h)]
  cases levels with
  | zero => rfl
  | succ levels => rfl

end DottedPath

/-! ## The target of a relative name -/

theorem splitAt_levels (levels : Nat) (path : List Char) :
    splitAt '/' ((List.replicate levels ['.', '.', '/']).flatten ++ path) =
      List.replicate levels ['.', '.'] ++ splitAt '/' path := by
  induction levels with
  | zero => rfl
  | succ levels ih =>
    have hfirst : (List.replicate (levels + 1) ['.', '.', '/']).flatten ++ path =
        ['.', '.'] ++ '/' :: ((List.replicate levels ['.', '.', '/']).flatten ++ path) := by
      rw [List.replicate_succ, List.flatten_cons, List.append_assoc]
      rfl
    rw [hfirst, splitAt_append, ih, List.replicate_succ]
    rfl

theorem segments_slashPath (levels : Nat) {down : List Name} (hne : down ≠ []) :
    segments (slashPath levels (down.map Name.text)) =
      (if levels = 0 then [['.']] else List.replicate levels ['.', '.']) ++
        down.map Name.text := by
  have hdown := segments_ofNames hne
  rw [ofNames, segments] at hdown
  rw [segments, slashPath]
  cases levels with
  | zero =>
    rw [if_pos rfl, if_pos rfl]
    exact (splitAt_append '/' ['.'] _).trans (congrArg ([['.']] ++ ·) hdown)
  | succ levels =>
    rw [if_neg (Nat.succ_ne_zero levels), if_neg (Nat.succ_ne_zero levels), splitAt_levels, hdown]

/-- The segments up and down from a directory leave the names above it and add those below. -/
theorem foldl_slashPath (common up : List Name) {down : List Name} (hne : down ≠ []) :
    (segments (slashPath up.length (down.map Name.text))).foldl (resolveSegment false)
        ((common ++ up).map Name.text).reverse =
      ((common ++ down).map Name.text).reverse := by
  have hup : (if up.length = 0 then [['.']] else List.replicate up.length ['.', '.']).foldl
      (resolveSegment false) ((common ++ up).map Name.text).reverse =
      (common.map Name.text).reverse := by
    cases up with
    | nil => rw [List.append_nil]; rfl
    | cons n up =>
      have hundo := foldl_resolveSegment_up false (common.map Name.text).reverse (n :: up).reverse
      rw [List.length_reverse, List.map_reverse] at hundo
      rw [if_neg (by simp), List.map_append, List.reverse_append, hundo]
  rw [segments_slashPath _ hne, List.foldl_append, hup, foldl_resolveSegment_names,
    List.map_append, List.reverse_append]

theorem join_slashPath (common up : List Name) {down : List Name} (hne : down ≠ [])
    (file : Name) :
    join (directory (ofNames (common ++ up ++ [file])))
      (slashPath up.length (down.map Name.text)) = ofNames (common ++ down) := by
  have hpath : slashPath up.length (down.map Name.text) ≠ [] :=
    List.ne_nil_of_mem (slash_mem_slashPath _ _)
  have hlast : (slashPath up.length (down.map Name.text)).getLast? ≠ some '/' := by
    have hdown := ofNames_ne_nil hne
    rw [ofNames] at hdown
    rw [slashPath, List.getLast?_append_of_ne_nil _ hdown]
    exact getLast?_ofNames down
  have hnames : common ++ down ≠ [] := List.append_ne_nil_of_right_ne_nil common hne
  have hfold := foldl_slashPath common up hne
  rw [directory_ofNames]
  by_cases hnil : common ++ up = []
  · rw [hnil] at hfold
    rw [if_pos hnil]
    exact join_of_foldl hnames (by decide) rfl (by decide) hpath hlast hfold
  · rw [if_neg hnil]
    apply join_of_foldl hnames (not_backslash_ofNames _) (isAbsolute_ofNames _)
      (ofNames_ne_nil hnil) hpath hlast
    rw [segments_ofNames hnil, List.foldl_append, foldl_resolveSegment_names, List.append_nil,
      hfold]

section Target

variable (here there : List Name) (file stem : Name)

theorem downTo_name :
    downTo here there stem.text = ((way here there).2 ++ [stem]).map Name.text := by
  rw [downTo, List.map_append, List.map_singleton]

theorem join_way :
    join (directory (ofNames (here ++ [file])))
      (slashPath (way here there).1 (downTo here there stem.text)) = ofNames (there ++ [stem]) := by
  obtain ⟨common, up, hhere, hthere, hlevels⟩ := exists_common_of_way here there
  rw [downTo_name, hlevels]
  generalize (way here there).2 = down at hthere ⊢
  rw [hhere, hthere, join_slashPath common up (List.append_ne_nil_of_right_ne_nil down (by simp)),
    List.append_assoc]

/-- The slash name leads to the file without its extension. -/
theorem target_slashSpecifier :
    target (slashSpecifier here there stem.text) (String.ofList (ofNames (here ++ [file]))) =
      ofNames (there ++ [stem]) := by
  rw [target, slashSpecifier, String.toList_ofList, String.toList_ofList, ofSpecifier_slashPath,
    join_way]

/-- The dotted name leads to the same place. -/
theorem target_dottedSpecifier
    (h : ∀ segment ∈ downTo here there stem.text, IsComponent segment) :
    target (dottedSpecifier here there stem.text) (String.ofList (ofNames (here ++ [file]))) =
      ofNames (there ++ [stem]) := by
  have hdown := downTo_name here there stem
  rw [hdown, List.forall_mem_map] at h
  have hpath := join_way here there file stem
  rw [hdown] at hpath
  rw [target, dottedSpecifier, String.toList_ofList, String.toList_ofList, hdown,
    ofSpecifier_dottedPath h (by simp), hpath]

end Target

/-! ## The file that is found -/

/-- The known paths hold the file `file` and, but for it, nothing that matches the path `stem`
directly; and no configured extension ends that path. -/
structure OnlyMatch (config : Config) (paths : List String) (stem : List Char) (file : String) :
    Prop where
  mem : file ∈ paths
  others : ∀ q ∈ paths, q ≠ file →
    normalize q.toList ≠ stem ∧ withoutExtension (normalize q.toList) ≠ stem
  ending : ∀ e ∈ config.extensions, endsWith stem e.toList = false

/-- A file that alone matches the target of a relative name is found. -/
theorem resolveRelative_of_onlyMatch {config : Config} {source currentFile file : String}
    {paths : List String} {stem : List Char} (hrelative : isRelative source = true)
    (htarget : target source currentFile = stem)
    (hfile : withoutExtension (normalize file.toList) = stem)
    (h : OnlyMatch config paths stem file) :
    resolveRelative config source currentFile paths = (some file, []) := by
  have hending : withoutEnding (config.extensions.map String.toList) stem = stem := by
    apply withoutEnding_of_forall
    rw [List.forall_mem_map]
    exact h.ending
  have hsome : (paths.find? fun q => isExact source currentFile q ||
      sharesStem config source currentFile q).isSome = true :=
    List.find?_isSome.mpr ⟨file, h.mem, by simp [sharesStem, htarget, hending, hfile]⟩
  obtain ⟨p, hp⟩ := Option.isSome_iff_exists.mp hsome
  have hpaths := List.mem_of_find?_eq_some hp
  have hmatches := List.find?_some hp
  simp only [isExact, sharesStem, htarget, hending, Bool.or_eq_true, beq_iff_eq] at hmatches
  have heq : p = file := by
    by_contra hne
    rcases hmatches with hmatches | hmatches
    · exact (h.others p hpaths hne).1 hmatches
    · exact (h.others p hpaths hne).2 hmatches
  rw [heq] at hp
  exact resolveRelative_of_find? hrelative hp

theorem isRelative_slashSpecifier (here there : List Name) (stem : List Char) :
    isRelative (slashSpecifier here there stem) = true := by
  rw [isRelative, relativeLevel, slashSpecifier, String.toList_ofList, slashPath]
  cases (way here there).1 with
  | zero => simp
  | succ levels => simp [List.replicate_succ]

theorem isRelative_dottedSpecifier (here there : List Name) (stem : List Char) :
    isRelative (dottedSpecifier here there stem) = true := by
  rw [isRelative, relativeLevel, dottedSpecifier, String.toList_ofList, dottedPath]
  simp [List.replicate_succ]

/-- A file is found by the relative name that leads to it, in either notation, from any file and
among any known paths of which no other one matches directly. Only a name whose part before the
extension is itself a name can be written, and a dotted one holds no dots or line breaks. -/
theorem resolveRelative_specifier (config : Config) (paths : List String)
    (here there : List Name) (file stem name : Name) {ext : List Char}
    (hname : name.text = stem.text ++ '.' :: ext)
    (hext : extension (ofNames (there ++ [name])) = '.' :: ext)
    (honly : OnlyMatch config paths (ofNames (there ++ [stem]))
      (String.ofList (ofNames (there ++ [name])))) :
    resolveRelative config (slashSpecifier here there stem.text)
        (String.ofList (ofNames (here ++ [file]))) paths =
        (some (String.ofList (ofNames (there ++ [name]))), []) ∧
      ((∀ segment ∈ downTo here there stem.text, IsComponent segment) →
        resolveRelative config (dottedSpecifier here there stem.text)
          (String.ofList (ofNames (here ++ [file]))) paths =
          (some (String.ofList (ofNames (there ++ [name]))), [])) := by
  have hfile : withoutExtension (normalize (String.ofList (ofNames (there ++ [name]))).toList) =
      ofNames (there ++ [stem]) := by
    have hpath : ofNames (there ++ [name]) = ofNames (there ++ [stem]) ++ '.' :: ext := by
      by_cases hnil : there = []
      · rw [hnil, List.nil_append, List.nil_append, ofNames_singleton, ofNames_singleton, hname]
      · rw [ofNames_concat hnil, ofNames_concat hnil, hname, List.append_assoc, List.cons_append]
    rw [hpath] at hext
    rw [String.toList_ofList, normalize_ofNames (by simp), hpath, withoutExtension_append hext]
  constructor
  · exact resolveRelative_of_onlyMatch (isRelative_slashSpecifier _ _ _)
      (target_slashSpecifier here there file stem) hfile honly
  · intro hcomponents
    exact resolveRelative_of_onlyMatch (isRelative_dottedSpecifier _ _ _)
      (target_dottedSpecifier here there file stem hcomponents) hfile honly

theorem resolveRelative_specifier_siblings :
    OnlyMatch .default ["src/core/user.vue", "src/core/users.ts", "src/user.ts"]
        "src/core/user".toList "src/core/user.vue" ∧
      resolveRelative .default "../core/user" "src/api/views.py"
          ["src/core/user.vue", "src/core/users.ts", "src/user.ts"] =
          (some "src/core/user.vue", []) ∧
        resolveRelative .default "..core.user" "src/api/views.py"
          ["src/core/user.vue", "src/core/users.ts", "src/user.ts"] =
          (some "src/core/user.vue", []) := by
  have honly : OnlyMatch .default ["src/core/user.vue", "src/core/users.ts", "src/user.ts"]
      "src/core/user".toList "src/core/user.vue" :=
    ⟨by decide, by decide, by decide⟩
  have hfound := resolveRelative_specifier .default
    ["src/core/user.vue", "src/core/users.ts", "src/user.ts"]
    [{ text := ['s', 'r', 'c'] }, { text := ['a', 'p', 'i'] }]
    [{ text := ['s', 'r', 'c'] }, { text := ['c', 'o', 'r', 'e'] }]
    { text := ['v', 'i', 'e', 'w', 's', '.', 'p', 'y'] }
    { text := ['u', 's', 'e', 'r'] } { text := ['u', 's', 'e', 'r', '.', 'v', 'u', 'e'] }
    rfl (by decide) honly
  have hcomponents : ∀ segment ∈ [['c', 'o', 'r', 'e'], ['u', 's', 'e', 'r']],
      IsComponent segment := by
    simp [IsComponent, isLineBreak]
  exact ⟨honly, hfound.1, hfound.2 hcomponents⟩

/-- A stem that is the directory itself is lost on the way, and so is a dotted name with a line
break. -/
theorem not_resolveRelative_specifier :
    (¬ ∀ (config : Config) (paths : List String) (here there : List Name) (file name : Name)
        (stem ext : List Char),
      name.text = stem ++ '.' :: ext → extension (ofNames (there ++ [name])) = '.' :: ext →
        OnlyMatch config paths (joinWith ['/'] (there.map Name.text ++ [stem]))
          (String.ofList (ofNames (there ++ [name]))) →
        resolveRelative config (slashSpecifier here there stem)
            (String.ofList (ofNames (here ++ [file]))) paths =
          (some (String.ofList (ofNames (there ++ [name]))), [])) ∧
      ¬ ∀ (config : Config) (paths : List String) (here there : List Name)
          (file stem name : Name) (ext : List Char),
        name.text = stem.text ++ '.' :: ext →
          extension (ofNames (there ++ [name])) = '.' :: ext →
          OnlyMatch config paths (ofNames (there ++ [stem]))
            (String.ofList (ofNames (there ++ [name]))) →
          (∀ segment ∈ downTo here there stem.text, '.' ∉ segment) →
          resolveRelative config (dottedSpecifier here there stem.text)
              (String.ofList (ofNames (here ++ [file]))) paths =
            (some (String.ofList (ofNames (there ++ [name]))), []) := by
  constructor
  · intro h
    have hfound := h .default ["a/..ext"] [{ text := ['a'] }] [{ text := ['a'] }]
      { text := ['x', '.', 't', 's'] } { text := ['.', '.', 'e', 'x', 't'] } ['.'] ['e', 'x', 't']
      rfl (by decide) ⟨by decide, by decide, by decide⟩
    revert hfound
    decide
  · intro h
    have hfound := h .default ["a\nb.py"] [] [] { text := ['x', '.', 'p', 'y'] }
      { text := ['a', '\n', 'b'] } { text := ['a', '\n', 'b', '.', 'p', 'y'] } ['p', 'y']
      rfl (by decide) ⟨by decide, by decide, by decide⟩ (by decide)
    revert hfound
    decide

end SymbolAtlas.Resolution
