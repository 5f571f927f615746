import SymbolAtlas.Proofs.Config
import SymbolAtlas.Proofs.Path.Ending
import SymbolAtlas.Proofs.Resolution.Independence
import SymbolAtlas.Proofs.Text.Pieces

/-! # Bare names by segments

A bare module name is compared with the known paths as text: an ending after a slash, and an index
file cut off by its length. Both comparisons are about whole segments. A path names the module's
file when its stem ends with the module's parts, and an index file of the module's directory when
its stem is that of the index file, in a directory that ends with the parts.
-/

namespace SymbolAtlas.Path

theorem segments_ne_nil (path : List Char) : segments path ≠ [] := by
  obtain ⟨segment, more, h⟩ := exists_splitAt '/' path
  rw [segments, h]
  exact List.cons_ne_nil _ _

theorem joinWith_segments (path : List Char) : joinWith ['/'] (segments path) = path :=
  joinWith_splitAt '/' path

/-- The last segments of a path are a path of their own, after a slash. -/
theorem segments_eq_append_iff {path name : List Char} {directory : List (List Char)}
    (hne : directory ≠ []) :
    segments path = directory ++ segments name ↔
      ∃ before, segments before = directory ∧ path = before ++ '/' :: name := by
  constructor
  · intro h
    have hslash : ∀ segment ∈ directory, '/' ∉ segment := by
      intro segment hsegment
      have hmem : segment ∈ segments path := h ▸ List.mem_append_left _ hsegment
      exact not_mem_of_mem_splitAt hmem
    refine ⟨joinWith ['/'] directory, splitAt_joinWith hne hslash, ?_⟩
    rw [← joinWith_segments path, h, joinWith_append hne (segments_ne_nil name),
      joinWith_segments, List.append_assoc, List.singleton_append]
  · rintro ⟨before, rfl, rfl⟩
    exact splitAt_append '/' before name

/-- A path ends with another after a slash, or is that path, exactly when its last segments are
the other's. -/
theorem endsAtSegment_iff {path ending : List Char} :
    endsAtSegment path ending = true ↔ segments ending <:+ segments path := by
  rw [endsAtSegment, Bool.or_eq_true, decide_eq_true_iff, endsWith, List.isSuffixOf_iff_suffix]
  constructor
  · rintro (rfl | ⟨before, rfl⟩)
    · exact List.suffix_refl _
    · rw [segments, segments, splitAt_append]
      exact List.suffix_append _ _
  · rintro ⟨directory, h⟩
    by_cases hne : directory = []
    · left
      rw [← joinWith_segments path, ← h, hne, List.nil_append, joinWith_segments]
    · obtain ⟨before, -, hpath⟩ := (segments_eq_append_iff hne).mp h.symm
      exact .inr ⟨before, hpath.symm⟩

end SymbolAtlas.Path

namespace SymbolAtlas.Resolution

/-! ## Parts, stems and index files -/

/-- The parts of a module name between its dots and slashes. -/
def moduleParts (module : String) : List (List Char) :=
  module.toList.splitOnP fun c => c == '.' || c == '/'

def stemSegments (config : Config) (path : String) : List (List Char) :=
  Path.segments
    (Path.withoutEnding (config.extensions.map String.toList) (Path.normalize path.toList))

def indexStem (config : Config) (file : String) : List Char :=
  Path.withoutEnding (config.extensions.map String.toList) file.toList

/-- Whether a path without its extension ends with the module's parts. -/
def NamesFile (config : Config) (module path : String) : Prop :=
  moduleParts module <:+ stemSegments config path

/-- Whether a path without its extension is an index file without its own, in a directory that
ends with the module's parts. -/
def NamesDirectory (config : Config) (module path : String) : Prop :=
  ∃ file ∈ config.indexFiles, ∃ directory,
    stemSegments config path = directory ++ Path.segments (indexStem config file) ∧
      moduleParts module <:+ directory

def IsFirst (property : String → Prop) (paths : List String) (p : String) : Prop :=
  ∃ before after, paths = before ++ p :: after ∧ property p ∧ ∀ q ∈ before, ¬ property q

/-- What a bare name denotes among the known paths: the first that names the module's file, or else
the first that names its directory, or else nothing. -/
inductive Denotes (config : Config) (module : String) (paths : List String) :
    Option String → Prop
  | file {p : String} (first : IsFirst (NamesFile config module) paths p) :
    Denotes config module paths (some p)
  | directory {p : String} (noFile : ∀ q ∈ paths, ¬ NamesFile config module q)
    (first : IsFirst (NamesDirectory config module) paths p) :
    Denotes config module paths (some p)
  | nothing (noFile : ∀ q ∈ paths, ¬ NamesFile config module q)
    (noDirectory : ∀ q ∈ paths, ¬ NamesDirectory config module q) :
    Denotes config module paths none

theorem segments_ofModule (module : String) :
    Path.segments (Path.ofModule module.toList) = moduleParts module := by
  rw [Path.segments, splitAt_eq_splitOn, moduleParts, Path.ofModule]
  induction module.toList with
  | nil => rfl
  | cons c cs ih =>
    rw [List.map_cons, List.splitOn_cons_eq_if_modifyHead, List.splitOnP_cons_eq_if_modifyHead, ih]
    by_cases hdot : c = '.'
    · subst hdot
      rfl
    · simp [hdot]

/-- No configured index file of an accepted configuration has more than one segment. -/
theorem segments_indexStem {config : Config} (h : config.IsChecked) {file : String}
    (hfile : file ∈ config.indexFiles) :
    Path.segments (indexStem config file) = [indexStem config file] := by
  apply splitAt_of_not_mem
  intro hslash
  have hmem := (Path.prefix_withoutEnding _ _).subset hslash
  exact Config.slash_not_mem_of_indexFileIssue? (h.indexFiles file hfile) hmem

/-! ## The tests of the search -/

section Tests

variable {config : Config} {module : String} {paths : List String} {p : String}

theorem endsAtSegment_ofModule_iff (config : Config) (module p : String) :
    Path.endsAtSegment
        (Path.withoutEnding (config.extensions.map String.toList) (Path.normalize p.toList))
        (Path.ofModule module.toList) = true ↔ NamesFile config module p := by
  rw [Path.endsAtSegment_iff, segments_ofModule]
  rfl

/-- Cutting an index file and its slash off a stem by their length leaves the directory. -/
theorem endsAtSegment_take_iff {stem index modulePath : List Char} :
    (Path.endsWith stem ('/' :: index) &&
        Path.endsAtSegment (stem.take (stem.length - (index.length + 1))) modulePath) = true ↔
      ∃ directory, Path.segments stem = directory ++ Path.segments index ∧
        Path.segments modulePath <:+ directory := by
  rw [Bool.and_eq_true, Path.endsAtSegment_iff, Path.endsWith, List.isSuffixOf_iff_suffix]
  have htake (before : List Char) : (before ++ '/' :: index).take
      ((before ++ '/' :: index).length - (index.length + 1)) = before := by
    rw [List.length_append, List.length_cons, Nat.add_sub_cancel, List.take_left]
  constructor
  · rintro ⟨⟨before, rfl⟩, hmodule⟩
    rw [htake] at hmodule
    exact ⟨Path.segments before, splitAt_append '/' before index, hmodule⟩
  · rintro ⟨directory, hstem, hmodule⟩
    have hne : directory ≠ [] := by
      rintro rfl
      exact Path.segments_ne_nil modulePath (List.suffix_nil.mp hmodule)
    obtain ⟨before, rfl, rfl⟩ := (Path.segments_eq_append_iff hne).mp hstem
    rw [htake]
    exact ⟨List.suffix_append _ _, hmodule⟩

theorem isIndexOf_ofModule_iff (config : Config) (module p : String) :
    isIndexOf config (Path.ofModule module.toList)
        (Path.withoutEnding (config.extensions.map String.toList) (Path.normalize p.toList)) =
      true ↔ NamesDirectory config module p := by
  rw [isIndexOf, List.any_eq_true]
  refine exists_congr fun file => and_congr_right fun _ => ?_
  rw [endsAtSegment_take_iff, segments_ofModule]
  rfl

theorem isFirst_of_find? {property : String → Prop} {test : String → Bool}
    (htest : ∀ q, test q = true ↔ property q) (h : paths.find? test = some p) :
    IsFirst property paths p := by
  obtain ⟨hp, before, after, rfl, hbefore⟩ := List.find?_eq_some_iff_append.mp h
  refine ⟨before, after, rfl, (htest p).mp hp, fun q hq hproperty => ?_⟩
  have hnot := hbefore q hq
  rw [(htest q).mpr hproperty] at hnot
  exact Bool.noConfusion hnot

theorem forall_not_of_find? {property : String → Prop} {test : String → Bool}
    (htest : ∀ q, test q = true ↔ property q) (h : paths.find? test = none) :
    ∀ q ∈ paths, ¬ property q := fun q hq hproperty =>
  List.find?_eq_none.mp h q hq ((htest q).mpr hproperty)

theorem denotes_bare? (config : Config) (module : String) (paths : List String) :
    Denotes config module paths (bare? config (Path.ofModule module.toList) paths) := by
  have hfile := endsAtSegment_ofModule_iff config module
  have hdirectory := isIndexOf_ofModule_iff config module
  rw [bare?_eq_firstHit, firstHit, bareTests, List.findSome?_cons, List.findSome?_cons,
    List.findSome?_nil]
  cases hfirst : paths.find? _ with
  | some p => exact .file (isFirst_of_find? hfile hfirst)
  | none =>
    have hnoFile := forall_not_of_find? hfile hfirst
    cases hsecond : paths.find? _ with
    | some p => exact .directory hnoFile (isFirst_of_find? hdirectory hsecond)
    | none => exact .nothing hnoFile (forall_not_of_find? hdirectory hsecond)

/-- Whatever a bare name denotes has the module's parts as whole neighbouring segments. -/
theorem Denotes.whole_parts (h : Denotes config module paths (some p)) :
    moduleParts module <:+: stemSegments config p := by
  cases h with
  | file first =>
    obtain ⟨-, -, -, hfile, -⟩ := first
    exact hfile.isInfix
  | directory _ first =>
    obtain ⟨-, -, -, ⟨file, -, directory, hstem, hparts⟩, -⟩ := first
    rw [hstem]
    exact hparts.isInfix.trans (List.prefix_append _ _).isInfix

end Tests

/-- A name whose parts are not empty begins with no dot and has a path. -/
theorem exists_cons_of_moduleParts {module : String}
    (h : ∀ part ∈ moduleParts module, part ≠ []) :
    ∃ c cs, module.toList = c :: cs ∧ c ≠ '.' := by
  cases hmodule : module.toList with
  | nil =>
    rw [moduleParts, hmodule, List.splitOnP_nil] at h
    exact absurd rfl (h [] List.mem_cons_self)
  | cons c cs =>
    refine ⟨c, cs, rfl, ?_⟩
    rintro rfl
    rw [moduleParts, hmodule, List.splitOnP_cons_eq_if_modifyHead,
      if_pos (by decide)] at h
    exact absurd rfl (h [] List.mem_cons_self)

/-- A bare name without an empty part denotes the first path whose stem ends with its parts, or
else the first index file of a directory that does, or else nothing; and never a path in which a
part is only a piece of a segment. The index files of an accepted configuration are single
segments, so that their directory is what stands before the last one. -/
theorem resolveModule_segments (config : Config) {module : String}
    (hparts : ∀ part ∈ moduleParts module, part ≠ []) (paths : List String)
    (currentFile : Option String) :
    (∃ answer, Denotes config module paths answer ∧
      resolveModule config module paths currentFile =
        (answer, if answer.isSome then []
          else [⟨.debug, "Could not resolve module \"" ++ module ++ "\""⟩]) ∧
      ∀ p, answer = some p → moduleParts module <:+: stemSegments config p) ∧
      ∀ overrides, Config.ofValue overrides = .ok config → ∀ file ∈ config.indexFiles,
        Path.segments (indexStem config file) = [indexStem config file] := by
  constructor
  · obtain ⟨c, cs, hmodule, hdot⟩ := exists_cons_of_moduleParts hparts
    have hbare : ¬ isRelative module = true := by
      simp [isRelative, relativeLevel, hmodule, hdot]
    have hpath : ¬ (Path.ofModule module.toList).isEmpty = true := by
      simp [Path.ofModule, hmodule]
    refine ⟨_, denotes_bare? config module paths, ?_, fun p hp => ?_⟩
    · simp only [resolveModule, if_neg hbare, if_neg hpath]
      cases bare? config (Path.ofModule module.toList) paths <;> rfl
    · exact (hp ▸ denotes_bare? config module paths).whole_parts
  · intro overrides hconfig file hfile
    exact segments_indexStem (Config.isChecked_of_ofValue hconfig) hfile

/-- An index file of the directory is found past a file whose segment only ends with a part, and
past one whose name goes on after the part. -/
theorem resolveModule_segments_of_package :
    (∀ part ∈ moduleParts "app.api", part ≠ []) ∧
      Denotes .default "app.api" ["lib/myapp/api.py", "/app/api.d.ts", "/app/api/__init__.py"]
        (some "/app/api/__init__.py") ∧
      moduleParts "app.api" <:+: stemSegments .default "/app/api/__init__.py" ∧
      ∀ file ∈ Config.default.indexFiles,
        Path.segments (indexStem .default file) = [indexStem .default file] := by
  have hparts : ∀ part ∈ moduleParts "app.api", part ≠ [] := by decide
  obtain ⟨⟨answer, hdenotes, hresolve, hinfix⟩, hindex⟩ := resolveModule_segments .default hparts
    ["lib/myapp/api.py", "/app/api.d.ts", "/app/api/__init__.py"] none
  have hanswer : (resolveModule .default "app.api"
      ["lib/myapp/api.py", "/app/api.d.ts", "/app/api/__init__.py"] none).1 =
        some "/app/api/__init__.py" := by decide
  rw [hresolve] at hanswer
  subst hanswer
  exact ⟨hparts, hdenotes, hinfix _ rfl, hindex none rfl⟩

end SymbolAtlas.Resolution
