import SymbolAtlas.Proofs.Path.Ending
import SymbolAtlas.Proofs.Path.Name
import SymbolAtlas.Proofs.Resolution.DirectMatch

/-! # What a relative name is tried as

A relative name is tried as a file first: as the target itself or a file of its stem, whatever the
file's extension, and then as the target with each configured extension. Only then is it tried as a
directory, with each index file. The configured orders decide inside their own steps: the earliest
extension wins unless some file has the stem, and the earliest index file unless there is a file.
-/

namespace SymbolAtlas.Resolution

/-! ## Forms that are tried in order -/

def isKnown (paths : List String) (form : List Char) : Bool :=
  paths.any fun p => Path.normalize p.toList == form

/-- The first known path of the first of the forms that any known path has. -/
def firstForm? (paths : List String) (forms : List (List Char)) : Option String :=
  forms.findSome? fun form => paths.find? fun p => Path.normalize p.toList == form

section FirstForm

variable {paths : List String} {forms : List (List Char)}

theorem isKnown_iff {form : List Char} :
    isKnown paths form = true ↔ ∃ p ∈ paths, Path.normalize p.toList = form := by
  simp [isKnown]

theorem firstForm?_append (forms forms' : List (List Char)) :
    firstForm? paths (forms ++ forms') =
      (firstForm? paths forms).or (firstForm? paths forms') := List.findSome?_append

theorem firstForm?_eq_none_iff :
    firstForm? paths forms = none ↔ ∀ form ∈ forms, isKnown paths form = false := by
  simp [firstForm?, isKnown]

/-- The earliest of the texts whose form is known gives the answer, in whatever order the paths
are listed. -/
theorem firstForm?_of_find? {form : String → List Char} {xs : List String} {x : String}
    (h : (xs.find? fun x => isKnown paths (form x)) = some x) :
    ∃ p ∈ paths, firstForm? paths (xs.map form) = some p ∧ Path.normalize p.toList = form x := by
  obtain ⟨hknown, before, after, rfl, hbefore⟩ := List.find?_eq_some_iff_append.mp h
  have hnone : firstForm? paths (before.map form) = none := by
    rw [firstForm?_eq_none_iff, List.forall_mem_map]
    exact fun y hy => by simpa using hbefore y hy
  obtain ⟨p, hp⟩ := Option.isSome_iff_exists.mp (List.find?_isSome.mpr (List.any_eq_true.mp hknown))
  refine ⟨p, List.mem_of_find?_eq_some hp, ?_, by simpa using List.find?_some hp⟩
  rw [List.map_append, firstForm?_append, hnone, Option.none_or, List.map_cons, firstForm?,
    List.findSome?_cons, hp]

end FirstForm

/-! ## The steps -/

/-- The known path that a relative name denotes as a file: the first one that matches directly, or
else the first one that is the target with the earliest extension. -/
def asFile? (config : Config) (source currentFile : String) (paths : List String) :
    Option String :=
  (paths.find? fun q => isExact source currentFile q || sharesStem config source currentFile q).or
    (firstForm? paths (config.extensions.map (target source currentFile ++ ·.toList)))

/-- Whether a known path is the target of a relative name as a file: the target itself, a path
of its stem, or the target with a configured extension. -/
def isFileOf (config : Config) (source currentFile path : String) : Bool :=
  isExact source currentFile path || sharesStem config source currentFile path ||
    config.extensions.any fun e =>
      Path.normalize path.toList == target source currentFile ++ e.toList

section Steps

variable {config : Config} {source currentFile : String} {paths : List String}

theorem relative?_eq_steps (config : Config) (source currentFile : String)
    (paths : List String) :
    relative? config source currentFile paths = (asFile? config source currentFile paths).or
      (firstForm? paths
        (config.indexFiles.map (Path.join (target source currentFile) ·.toList))) := by
  simp only [relative?, firstWhere_withForm, candidates, List.findSome?_append, asFile?,
    firstForm?, isExact, sharesStem, Option.or_assoc]

theorem resolveRelative_of_relative? {p : String} (hrelative : isRelative source = true)
    (h : relative? config source currentFile paths = some p) :
    resolveRelative config source currentFile paths = (some p, []) := by
  rw [resolveRelative, if_pos hrelative, h]

theorem isFileOf_eq_false (h : asFile? config source currentFile paths = none) {q : String}
    (hq : q ∈ paths) : isFileOf config source currentFile q = false := by
  rw [asFile?, Option.or_eq_none_iff, firstForm?_eq_none_iff, List.forall_mem_map] at h
  have hdirect := List.find?_eq_none.mp h.1 q hq
  rw [isFileOf, Bool.eq_false_iff.mpr hdirect, Bool.false_or, List.any_eq_false]
  intro e he heq
  have hknown := isKnown_iff.mpr ⟨q, hq, beq_iff_eq.mp heq⟩
  exact Bool.noConfusion (hknown.symm.trans (h.2 e he))

theorem isFileOf_of_asFile? {q : String} (h : asFile? config source currentFile paths = some q) :
    q ∈ paths ∧ isFileOf config source currentFile q = true := by
  rw [asFile?, Option.or_eq_some_iff] at h
  rcases h with h | ⟨-, h⟩
  · have hq := List.find?_some h
    exact ⟨List.mem_of_find?_eq_some h, by rw [isFileOf, hq, Bool.true_or]⟩
  · obtain ⟨form, hform, hq⟩ := List.exists_of_findSome?_eq_some h
    obtain ⟨e, he, rfl⟩ := List.mem_map.mp hform
    refine ⟨List.mem_of_find?_eq_some hq, ?_⟩
    rw [isFileOf, Bool.or_eq_true]
    exact .inr (List.any_eq_true.mpr ⟨e, he, by simpa using List.find?_some hq⟩)

end Steps

section Steps

variable {config : Config} {source currentFile : String} {paths : List String}

/-- Where the target is known as a directory with some index file: a path that is the target as a
file comes first. Without one, the earliest index file decides, whatever the listed order. -/
theorem resolveRelative_indexFile (config : Config) (hrelative : isRelative source = true)
    {f : String} (hf : (config.indexFiles.find? fun f =>
      isKnown paths (Path.join (target source currentFile) f.toList)) = some f) :
    ∃ answer ∈ paths, resolveRelative config source currentFile paths = (some answer, []) ∧
      if paths.any (isFileOf config source currentFile) then
        isFileOf config source currentFile answer = true
      else
        Path.normalize answer.toList = Path.join (target source currentFile) f.toList := by
  obtain ⟨p, hp, hfirst, hform⟩ := firstForm?_of_find? hf
  have hsteps := relative?_eq_steps config source currentFile paths
  rw [hfirst] at hsteps
  cases hfile : asFile? config source currentFile paths with
  | some q =>
    obtain ⟨hq, hfileOf⟩ := isFileOf_of_asFile? hfile
    rw [hfile] at hsteps
    refine ⟨q, hq, resolveRelative_of_relative? hrelative hsteps, ?_⟩
    rw [if_pos (List.any_eq_true.mpr ⟨q, hq, hfileOf⟩)]
    exact hfileOf
  | none =>
    have hnot : ¬ paths.any (isFileOf config source currentFile) = true := by
      rw [List.any_eq_true]
      rintro ⟨q, hq, hfileOf⟩
      exact Bool.noConfusion (hfileOf.symm.trans (isFileOf_eq_false hfile hq))
    rw [hfile] at hsteps
    refine ⟨p, hp, resolveRelative_of_relative? hrelative hsteps, ?_⟩
    rw [if_neg hnot]
    exact hform

end Steps

/-- An index file of the directory, in the order of the configuration and not of the listing. -/
theorem resolveRelative_indexFile_of_directory :
    isRelative "./pkg/" = true ∧
      ((Config.default.indexFiles.find? fun f =>
        isKnown ["pkg.d/a.ts", "pkg/__init__.py", "pkg/index.ts"]
          (Path.join (target "./pkg/" "a.ts") f.toList)) = some "index.ts") ∧
      ∃ answer ∈ ["pkg.d/a.ts", "pkg/__init__.py", "pkg/index.ts"],
        resolveRelative .default "./pkg/" "a.ts" ["pkg.d/a.ts", "pkg/__init__.py", "pkg/index.ts"] =
            (some answer, []) ∧
          Path.normalize answer.toList = "pkg/index.ts".toList := by
  have hfirst : (Config.default.indexFiles.find? fun f =>
      isKnown ["pkg.d/a.ts", "pkg/__init__.py", "pkg/index.ts"]
        (Path.join (target "./pkg/" "a.ts") f.toList)) = some "index.ts" := by decide
  obtain ⟨answer, hmem, hresolve, hform⟩ := resolveRelative_indexFile .default (by decide) hfirst
  rw [if_neg (by decide)] at hform
  exact ⟨by decide, hfirst, answer, hmem, hresolve, hform⟩

/-- A module beside a package of its name takes the package's place, even for a name that can only
be a directory; and a directory name that does not begin with a dot is no relative name. -/
theorem not_resolveRelative_indexFile :
    (¬ ∀ (config : Config) (source currentFile : String) (paths : List String) (f : String),
      isRelative source = true →
        (source.toList.all (· == '.') = true ∨ source.toList.getLast? = some '/') →
        (config.indexFiles.find? fun f =>
          isKnown paths (Path.join (target source currentFile) f.toList)) = some f →
          ∃ q, (resolveRelative config source currentFile paths).1 = some q ∧
            Path.normalize q.toList = Path.join (target source currentFile) f.toList) ∧
      ¬ ∀ (config : Config) (source currentFile : String) (paths : List String) (f : String),
        source.toList.getLast? = some '/' →
          (config.indexFiles.find? fun f =>
            isKnown paths (Path.join (target source currentFile) f.toList)) = some f →
            ((resolveRelative config source currentFile paths).1).isSome = true := by
  constructor
  · intro h
    obtain ⟨q, hq, hform⟩ := h .default "." "pkg/mod.py" ["pkg.py", "pkg/__init__.py"]
      "__init__.py" (by decide) (by decide) (by decide)
    have hmodule : (resolveRelative .default "." "pkg/mod.py" ["pkg.py", "pkg/__init__.py"]).1 =
        some "pkg.py" := by decide
    rw [hmodule] at hq
    cases hq
    revert hform
    decide
  · intro h
    have hfound := h .default "lib/" "a.ts" ["lib/index.js"] "index.js" (by decide) (by decide)
    revert hfound
    decide

end SymbolAtlas.Resolution
