import SymbolAtlas.Proofs.Path.NormalForm
import SymbolAtlas.Proofs.Resolution.ModuleSegments

/-! # Index files by name and by stem

A relative name finds a directory by the whole names of its index files. A bare name compares
stems, and so it takes any file for an index file that is one but for a configured extension. The
two agree for the configurations whose index files are all the names with their stems.
-/

namespace SymbolAtlas.Path

/-- Endings without slashes are endings of the last segment. -/
theorem withoutEnding_below {endings : List (List Char)} (h : ∀ ending ∈ endings, '/' ∉ ending)
    (before name : List Char) :
    withoutEnding endings (before ++ '/' :: name) =
      before ++ '/' :: withoutEnding endings name := by
  have hnot {cs : List Char} (hslash : '/' ∈ cs) : ¬ endings.contains cs = true := by
    rw [List.contains_iff_mem]
    exact fun hmem => h cs hmem hslash
  induction before with
  | nil => rw [List.nil_append, withoutEnding, if_neg (hnot List.mem_cons_self), List.nil_append]
  | cons c before ih =>
    rw [List.cons_append, withoutEnding, if_neg (hnot (by simp)), ih, List.cons_append]

end SymbolAtlas.Path

namespace SymbolAtlas.Config

theorem slash_not_mem_of_extensionIssue? {e : String}
    (h : extensionIssue? (.text e) = none) : '/' ∉ e.toList := by
  have hextension : isExtension e = true := by
    rw [extensionIssue?] at h
    split at h
    · assumption
    · cases h
  rw [isExtension] at hextension
  split at hextension
  · rename_i rest hrest
    rw [Bool.and_eq_true, List.all_eq_true] at hextension
    rw [hrest, List.mem_cons, not_or]
    exact ⟨by decide, fun hslash => absurd (hextension.2 '/' hslash) (by decide)⟩
  · cases hextension

theorem ne_empty_of_indexFileIssue? {file : String}
    (h : indexFileIssue? (.text file) = none) : file ≠ "" := by
  rintro rfl
  cases h

end SymbolAtlas.Config

namespace SymbolAtlas.Resolution

/-- The last segment of a path's normal form. -/
def lastSegment (path : String) : List Char :=
  (Path.segments (Path.normalize path.toList)).getLast (Path.segments_ne_nil _)

/-- Whether a path answers a bare name for its directory, its own stem not ending with the name. -/
structure AnswersForDirectory (config : Config) (module : String) (paths : List String)
    (currentFile : Option String) (p : String) : Prop where
  isBare : isRelative module = false
  answers : (resolveModule config module paths currentFile).1 = some p
  not_namesFile : ¬ NamesFile config module p

/-- Whether the index files of a configuration are all the names that have the stem of one. -/
structure HasWholeStems (config : Config) : Prop where
  stem_ne_nil : ∀ file ∈ config.indexFiles, indexStem config file ≠ []
  mem_of_stem : ∀ name : Path.Name, (∃ file ∈ config.indexFiles,
    indexStem config (String.ofList name.text) = indexStem config file) →
      String.ofList name.text ∈ config.indexFiles

section Checked

variable {config : Config} {module p : String} {paths : List String} {currentFile : Option String}

theorem AnswersForDirectory.namesDirectory
    (h : AnswersForDirectory config module paths currentFile p) :
    NamesDirectory config module p := by
  obtain ⟨hbare, hanswer, hnot⟩ := h
  have hdenotes := denotes_bare? config module paths
  rw [resolveModule, if_neg (by simp [hbare])] at hanswer
  dsimp only at hanswer
  split at hanswer
  · cases hanswer
  · split at hanswer
    · rename_i q hq
      obtain rfl := Option.some.inj hanswer
      rw [hq] at hdenotes
      cases hdenotes with
      | file first =>
        obtain ⟨-, -, -, hfile, -⟩ := first
        exact absurd hfile hnot
      | directory _ first =>
        obtain ⟨-, -, -, hdirectory, -⟩ := first
        exact hdirectory
    · cases hanswer

/-- A lone path that names the directory and not the file is the answer. -/
theorem answersForDirectory_singleton (hbare : isRelative module = false)
    (hpath : Path.ofModule module.toList ≠ []) (hnot : ¬ NamesFile config module p)
    (hdirectory : NamesDirectory config module p) :
    AnswersForDirectory config module [p] none p := by
  refine ⟨hbare, ?_, hnot⟩
  have hdenotes := denotes_bare? config module [p]
  have hempty : ¬ (Path.ofModule module.toList).isEmpty = true := by simpa using hpath
  simp only [resolveModule, hbare, if_neg hempty, Bool.false_eq_true, if_false]
  cases hanswer : bare? config (Path.ofModule module.toList) [p] with
  | none =>
    rw [hanswer] at hdenotes
    cases hdenotes with
    | nothing _ noDirectory => exact absurd hdirectory (noDirectory p List.mem_cons_self)
  | some q =>
    have hq : q = p := by
      rw [hanswer] at hdenotes
      have hmem {property : String → Prop} (first : IsFirst property [p] q) : q = p := by
        obtain ⟨before, after, hsplit, -, -⟩ := first
        have : q ∈ [p] := hsplit ▸ List.mem_append_right before List.mem_cons_self
        exact List.mem_singleton.mp this
      cases hdenotes with
      | file first => exact hmem first
      | directory _ first => exact hmem first
    rw [hq]

/-! ## The last segment of an answer -/

theorem lastSegment_of_segments {directory : List (List Char)} {name : List Char}
    (h : Path.segments (Path.normalize p.toList) = directory ++ [name]) : lastSegment p = name := by
  simp only [lastSegment, h, List.getLast_concat]

theorem not_slash_of_isChecked (h : config.IsChecked) :
    ∀ ending ∈ config.extensions.map String.toList, '/' ∉ ending := by
  rw [List.forall_mem_map]
  exact fun e he => Config.slash_not_mem_of_extensionIssue? (h.extensions e he)

/-- Below a directory, the extension that a path is cut of is that of its last segment. -/
theorem stemSegments_of_segments (hchecked : config.IsChecked) {directory : List (List Char)}
    (hne : directory ≠ []) {name : List Char}
    (hsegments : Path.segments (Path.normalize p.toList) = directory ++ [name]) :
    stemSegments config p = directory ++ [indexStem config (String.ofList name)] := by
  have hmem : name ∈ Path.segments (Path.normalize p.toList) :=
    hsegments ▸ List.mem_append_right _ List.mem_cons_self
  have hname : '/' ∉ name := not_mem_of_mem_splitAt hmem
  rw [← splitAt_of_not_mem hname] at hsegments
  obtain ⟨before, rfl, hform⟩ := (Path.segments_eq_append_iff hne).mp hsegments
  have hstem : '/' ∉ indexStem config (String.ofList name) := by
    rw [indexStem, String.toList_ofList]
    exact fun h => hname ((Path.prefix_withoutEnding _ _).subset h)
  rw [← splitAt_of_not_mem hstem, stemSegments, hform,
    Path.withoutEnding_below (not_slash_of_isChecked hchecked), Path.segments, splitAt_append,
    indexStem, String.toList_ofList]
  rfl

/-- A path is found for its directory exactly when its last segment has the stem of an index file
and the segments before it end with the module's parts. -/
theorem namesDirectory_iff (hchecked : config.IsChecked) : NamesDirectory config module p ↔
    ∃ directory name, Path.segments (Path.normalize p.toList) = directory ++ [name] ∧
      moduleParts module <:+ directory ∧
      ∃ file ∈ config.indexFiles, indexStem config (String.ofList name) = indexStem config file := by
  have hslash := not_slash_of_isChecked hchecked
  have hparts : moduleParts module ≠ [] := by
    rw [← segments_ofModule]
    exact Path.segments_ne_nil _
  have hne {directory : List (List Char)} (h : moduleParts module <:+ directory) :
      directory ≠ [] := by
    rintro rfl
    exact hparts (List.suffix_nil.mp h)
  constructor
  · rintro ⟨file, hfile, directory, hstem, hdirectory⟩
    obtain ⟨before, hbefore, hcut⟩ :=
      (Path.segments_eq_append_iff (hne hdirectory)).mp hstem
    obtain ⟨ending, hpath, hending⟩ := Path.exists_withoutEnding_append
      (config.extensions.map String.toList) (Path.normalize p.toList)
    have hname : '/' ∉ indexStem config file ++ ending := by
      rw [List.mem_append, not_or]
      refine ⟨fun h => ?_, ?_⟩
      · exact Config.slash_not_mem_of_indexFileIssue? (hchecked.indexFiles file hfile)
          ((Path.prefix_withoutEnding _ _).subset h)
      · rcases hending with rfl | hending
        · exact List.not_mem_nil
        · exact hslash ending hending
    have hform : Path.normalize p.toList = before ++ '/' :: (indexStem config file ++ ending) := by
      rw [hpath, hcut, List.append_assoc, List.cons_append]
    refine ⟨directory, indexStem config file ++ ending, ?_, hdirectory, file, hfile, ?_⟩
    · rw [(Path.segments_eq_append_iff (hne hdirectory)).mpr ⟨before, hbefore, hform⟩,
        Path.segments, splitAt_of_not_mem hname]
    · rw [hform, Path.withoutEnding_below hslash] at hcut
      rw [indexStem, String.toList_ofList]
      exact (List.cons.inj (List.append_cancel_left hcut)).2
  · rintro ⟨directory, name, hsegments, hdirectory, file, hfile, hname⟩
    refine ⟨file, hfile, directory, ?_, hdirectory⟩
    rw [stemSegments_of_segments hchecked (hne hdirectory) hsegments, hname,
      segments_indexStem hchecked hfile]

/-- The file's own name is that of an index file but for its extension. -/
theorem AnswersForDirectory.lastSegment_eq (hchecked : config.IsChecked)
    (h : AnswersForDirectory config module paths currentFile p) :
    ∃ file ∈ config.indexFiles, ∃ ending,
      (ending = [] ∨ ending ∈ config.extensions.map String.toList) ∧
        lastSegment p = indexStem config file ++ ending := by
  obtain ⟨directory, name, hsegments, -, file, hfile, hname⟩ :=
    (namesDirectory_iff hchecked).mp h.namesDirectory
  obtain ⟨ending, hsplit, hending⟩ :=
    Path.exists_withoutEnding_append (config.extensions.map String.toList) name
  rw [indexStem, String.toList_ofList] at hname
  refine ⟨file, hfile, ending, hending, ?_⟩
  rw [lastSegment_of_segments hsegments, ← hname]
  exact hsplit

theorem dot_not_mem_of_mem_moduleParts {part : List Char} (h : part ∈ moduleParts module) :
    '.' ∉ part := by
  intro hdot
  rw [← segments_ofModule] at h
  obtain ⟨c, -, hc⟩ := List.mem_map.mp (mem_of_mem_splitAt h hdot)
  split at hc
  · exact absurd hc (by decide)
  · rename_i hne
    exact hne hc

/-- Behind a directory that a module names there is a name or, after a final slash, nothing: steps
up are no parts of a module name. -/
theorem eq_nil_or_name_of_segments {directory : List (List Char)} {name : List Char}
    (hsegments : Path.segments (Path.normalize p.toList) = directory ++ [name])
    (hdirectory : moduleParts module <:+ directory) :
    name = [] ∨ ∃ n : Path.Name, n.text = name := by
  obtain ⟨part, parts, hparts⟩ :=
    List.exists_cons_of_ne_nil (segments_ofModule module ▸ Path.segments_ne_nil _)
  have hmem : part ∈ moduleParts module := hparts ▸ List.mem_cons_self
  have hbefore : part ∈ directory := hdirectory.subset hmem
  rcases (Path.isNormalForm_normalize p.toList).segments_eq with hnormal | hnormal | ⟨r, hr, -⟩
  · rw [hnormal] at hsegments
    have hlength := congrArg List.length hsegments
    rw [List.length_append, List.length_singleton] at hlength
    exact absurd (List.length_pos_of_mem hbefore)
      (by rw [← Nat.succ.inj hlength]; exact Nat.lt_irrefl 0)
  · rw [hnormal] at hsegments
    have happend : [[]] ++ [[]] = directory ++ [name] := hsegments
    exact .inl (List.singleton_inj.mp (List.append_inj_right' happend rfl)).symm
  · rw [hr] at hsegments
    have hlast : r.segments.getLast? = some name := by rw [hsegments, List.getLast?_concat]
    by_cases htrailed : r.isTrailed = true
    · rw [Path.Resolved.segments, if_pos htrailed, List.getLast?_concat] at hlast
      exact .inl (Option.some.inj hlast).symm
    rw [Path.Resolved.segments, if_neg htrailed, List.append_nil] at hlast hsegments
    rcases List.eq_nil_or_concat r.names with hnames | ⟨names, n, hnames⟩
    · exfalso
      have hsteps : Path.stepsOf r.levels r.names = List.replicate r.levels ['.', '.'] := by
        rw [hnames, Path.stepsOf, List.map_nil, List.append_nil]
      have hrelative : ¬ r.isAbsolute = true := fun habsolute =>
        r.steps_ne (by rw [hsteps, r.levels_eq habsolute, List.replicate_zero])
      rw [if_neg hrelative, List.nil_append, hsteps] at hsegments
      have hup : part ∈ List.replicate r.levels ['.', '.'] :=
        hsegments ▸ List.mem_append_left _ hbefore
      have hdot := dot_not_mem_of_mem_moduleParts hmem
      rw [List.eq_of_mem_replicate hup] at hdot
      exact hdot List.mem_cons_self
    · rw [hnames, Path.stepsOf, List.concat_eq_append, List.map_append, List.map_singleton,
        ← List.append_assoc, ← List.append_assoc, List.getLast?_concat] at hlast
      exact .inr ⟨n, Option.some.inj hlast⟩

/-- When all names with the stem of an index file are index files, so is whatever answers. -/
theorem HasWholeStems.mem_indexFiles (hwhole : HasWholeStems config)
    (hchecked : config.IsChecked)
    (h : AnswersForDirectory config module paths currentFile p) :
    String.ofList (lastSegment p) ∈ config.indexFiles := by
  obtain ⟨directory, name, hsegments, hdirectory, file, hfile, hname⟩ :=
    (namesDirectory_iff hchecked).mp h.namesDirectory
  rw [lastSegment_of_segments hsegments]
  rcases eq_nil_or_name_of_segments hsegments hdirectory with rfl | ⟨n, rfl⟩
  · exact absurd hname.symm (hwhole.stem_ne_nil file hfile)
  · exact hwhole.mem_of_stem n ⟨file, hfile, hname⟩

/-- Below a directory of one name, a file whose stem is that of an index file answers for the
directory. -/
theorem answersForDirectory_of_stem (hchecked : config.IsChecked) (m : Path.Name)
    (hbare : isRelative (String.ofList m.text) = false)
    (hparts : moduleParts (String.ofList m.text) = [m.text]) {name : List Char}
    (hsegments : Path.segments (Path.normalize p.toList) = [m.text] ++ [name])
    (hne : indexStem config (String.ofList name) ≠ m.text) {file : String}
    (hfile : file ∈ config.indexFiles)
    (hname : indexStem config (String.ofList name) = indexStem config file) :
    AnswersForDirectory config (String.ofList m.text) [p] none p := by
  have hdirectory : NamesDirectory config (String.ofList m.text) p :=
    (namesDirectory_iff hchecked).mpr ⟨[m.text], name, hsegments,
      hparts ▸ List.suffix_refl _, file, hfile, hname⟩
  refine answersForDirectory_singleton hbare ?_ ?_ hdirectory
  · rw [String.toList_ofList, Path.ofModule, ne_eq, List.map_eq_nil_iff]
    exact m.ne_nil
  · intro hfile
    rw [NamesFile, hparts,
      stemSegments_of_segments hchecked (List.cons_ne_nil _ _) hsegments] at hfile
    obtain ⟨before, hbefore⟩ := hfile
    exact hne (List.singleton_inj.mp (List.append_inj_right' hbefore rfl)).symm

/-- When whatever answers for its directory is an index file, all names with the stem of an index
file are index files. -/
theorem hasWholeStems_of_forall (hchecked : config.IsChecked)
    (h : ∀ module paths currentFile p, AnswersForDirectory config module paths currentFile p →
      String.ofList (lastSegment p) ∈ config.indexFiles) : HasWholeStems config := by
  constructor
  · intro file hfile hstem
    -- Behind a line break a final slash stays, and the segment after it is empty.
    have hsegments : Path.segments (Path.normalize "m\n/".toList) = [['m', '\n']] ++ [[]] := by
      decide
    have hempty := h _ _ _ _ (answersForDirectory_of_stem hchecked ⟨['m', '\n'], by decide,
      by decide, by decide, by decide, by decide⟩ (by decide) (by decide) hsegments
      (List.cons_ne_nil _ _).symm hfile hstem.symm)
    rw [lastSegment_of_segments hsegments] at hempty
    exact Config.ne_empty_of_indexFileIssue? (hchecked.indexFiles _ hempty) rfl
  · rintro n ⟨file, hfile, hname⟩
    have hanswer (m : Path.Name) (hbare : isRelative (String.ofList m.text) = false)
        (hparts : moduleParts (String.ofList m.text) = [m.text])
        (hne : indexStem config (String.ofList n.text) ≠ m.text) :
        String.ofList n.text ∈ config.indexFiles := by
      have hsegments : Path.segments (Path.normalize
          (String.ofList (Path.ofNames [m, n])).toList) = [m.text] ++ [n.text] := by
        rw [String.toList_ofList, Path.normalize_ofNames (List.cons_ne_nil _ _),
          Path.segments_ofNames (List.cons_ne_nil _ _)]
        rfl
      rw [← lastSegment_of_segments hsegments]
      exact h _ _ _ _ (answersForDirectory_of_stem hchecked m hbare hparts hsegments hne hfile
        hname)
    by_cases ha : indexStem config (String.ofList n.text) = ['a']
    · exact hanswer ⟨['b'], by decide, by decide, by decide, by decide, by decide⟩ (by decide)
        (by decide) (by rw [ha]; decide)
    · exact hanswer ⟨['a'], by decide, by decide, by decide, by decide, by decide⟩ (by decide)
        (by decide) ha

end Checked

/-- The last segment of a path that answers for its directory is an index file but for a configured
extension. It always is an index file exactly when the configuration's index files are all the
names with their stems. -/
theorem lastSegment_of_answersForDirectory {overrides : Option Value} {config : Config}
    (h : Config.ofValue overrides = .ok config) :
    (∀ module paths currentFile p, AnswersForDirectory config module paths currentFile p →
      ∃ file ∈ config.indexFiles, ∃ ending,
        (ending = [] ∨ ending ∈ config.extensions.map String.toList) ∧
          lastSegment p = indexStem config file ++ ending) ∧
      ((∀ module paths currentFile p, AnswersForDirectory config module paths currentFile p →
        String.ofList (lastSegment p) ∈ config.indexFiles) ↔ HasWholeStems config) := by
  have hchecked := Config.isChecked_of_ofValue h
  exact ⟨fun _ _ _ _ hanswer => hanswer.lastSegment_eq hchecked,
    hasWholeStems_of_forall hchecked,
    fun hwhole _ _ _ _ hanswer => hwhole.mem_indexFiles hchecked hanswer⟩

/-- A package initialiser is an index file with its extension and without. -/
def initialiserConfig : Config where
  extensions := [".py"]
  indexFiles := ["__init__.py", "__init__"]
  includeExported := true

theorem hasWholeStems_initialiserConfig : HasWholeStems initialiserConfig := by
  have hstem : ∀ file ∈ initialiserConfig.indexFiles,
      indexStem initialiserConfig file = "__init__".toList := by decide
  constructor
  · decide
  · rintro n ⟨file, hfile, hname⟩
    obtain ⟨ending, hsplit, hending⟩ := Path.exists_withoutEnding_append
      (initialiserConfig.extensions.map String.toList) n.text
    rw [hstem file hfile, indexStem, String.toList_ofList] at hname
    rw [hsplit, hname]
    rcases hending with rfl | hending
    · decide
    · rw [List.mem_singleton.mp hending]
      decide

/-- There the initialiser that answers for its package is an index file. -/
theorem lastSegment_of_answersForDirectory_initialiser :
    Config.ofValue (some initialiserConfig.toValue) = .ok initialiserConfig ∧
      AnswersForDirectory initialiserConfig "pkg" ["lib/pkg/a.py", "lib/pkg/__init__.py"] none
        "lib/pkg/__init__.py" ∧
      String.ofList (lastSegment "lib/pkg/__init__.py") ∈ initialiserConfig.indexFiles := by
  have hconfig : Config.ofValue (some initialiserConfig.toValue) = .ok initialiserConfig := rfl
  have hanswer : AnswersForDirectory initialiserConfig "pkg"
      ["lib/pkg/a.py", "lib/pkg/__init__.py"] none "lib/pkg/__init__.py" :=
    ⟨by decide, by decide, by rw [NamesFile]; decide⟩
  obtain ⟨-, hiff⟩ := lastSegment_of_answersForDirectory hconfig
  exact ⟨hconfig, hanswer, hiff.mpr hasWholeStems_initialiserConfig _ _ _ _ hanswer⟩

/-- A script index answers for a package that is sought by the index file of another extension. -/
theorem not_forall_answersForDirectory_indexFile :
    ¬ ∀ overrides config, Config.ofValue overrides = .ok config →
      ∀ module paths currentFile p, AnswersForDirectory config module paths currentFile p →
        String.ofList (lastSegment p) ∈ config.indexFiles := by
  intro h
  have hanswer : AnswersForDirectory .default "pkg" ["pkg/index.py"] none "pkg/index.py" :=
    ⟨by decide, by decide, by rw [NamesFile]; decide⟩
  exact absurd (h none .default rfl _ _ _ _ hanswer) (by decide)

end SymbolAtlas.Resolution
