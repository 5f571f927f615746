import SymbolAtlas.Resolution

/-! # Resolution ignores irrelevant paths

Both resolvers try tests in a fixed order, each on all known paths in theirs, and answer with the
first path that passes the first test that any path passes. Such a search never lets a path that
is not the answer decide between the others.
-/

namespace SymbolAtlas.Resolution

/-- The first path that passes the first test that any path passes. -/
def firstHit (tests : List (String → Bool)) (paths : List String) : Option String :=
  tests.findSome? fun test => paths.find? test

section FirstHit

variable {test : String → Bool} {tests : List (String → Bool)} {paths : List String} {q : String}

theorem find?_without (h : paths.find? test ≠ some q) :
    (paths.filter (· != q)).find? test = paths.find? test := by
  induction paths with
  | nil => rfl
  | cons p paths ih =>
    by_cases htest : test p = true
    · have hp : p ≠ q := by
        rintro rfl
        exact h (List.find?_cons_of_pos htest)
      rw [List.filter_cons_of_pos (by simpa using hp), List.find?_cons_of_pos htest,
        List.find?_cons_of_pos htest]
    · rw [List.find?_cons_of_neg htest] at h ⊢
      by_cases hp : p = q
      · rw [List.filter_cons_of_neg (by simpa using hp), ih h]
      · rw [List.filter_cons_of_pos (by simpa using hp), List.find?_cons_of_neg htest, ih h]

theorem find?_insert (test : String → Bool) (before after : List String) (q : String) :
    (before ++ q :: after).find? test = (before ++ after).find? test ∨
      (before ++ q :: after).find? test = some q := by
  rw [List.find?_append, List.find?_append]
  cases before.find? test with
  | some p => exact .inl rfl
  | none =>
    by_cases htest : test q = true
    · exact .inr (by rw [List.find?_cons_of_pos htest]; rfl)
    · exact .inl (by rw [List.find?_cons_of_neg htest])

/-- Removing a path that is not the answer leaves the answer. -/
theorem firstHit_without (h : firstHit tests paths ≠ some q) :
    firstHit tests (paths.filter (· != q)) = firstHit tests paths := by
  induction tests with
  | nil => rfl
  | cons test tests ih =>
    simp only [firstHit, List.findSome?_cons] at h ih ⊢
    have hfind : paths.find? test ≠ some q := by
      intro he
      rw [he] at h
      exact h rfl
    rw [find?_without hfind]
    cases hp : paths.find? test with
    | some p => rfl
    | none =>
      rw [hp] at h
      exact ih h

/-- A further path leaves the answer or becomes it. -/
theorem firstHit_insert (tests : List (String → Bool)) (before after : List String) (q : String) :
    firstHit tests (before ++ q :: after) = firstHit tests (before ++ after) ∨
      firstHit tests (before ++ q :: after) = some q := by
  induction tests with
  | nil => exact .inl rfl
  | cons test tests ih =>
    simp only [firstHit, List.findSome?_cons] at ih ⊢
    rcases find?_insert test before after q with heq | heq
    · rw [heq]
      cases (before ++ after).find? test with
      | some p => exact .inl rfl
      | none => exact ih
    · rw [heq]
      exact .inr rfl

end FirstHit

/-! ## The resolvers as such searches -/

theorem firstWhere_withForm (form : List Char → List Char) (test : List Char → Bool)
    (paths : List String) :
    firstWhere (paths.map (withForm form)) test = paths.find? fun p => test (form p.toList) := by
  rw [firstWhere, List.find?_map, Option.map_map]
  cases h : paths.find? ((fun known => test known.2) ∘ withForm form) with
  | none => exact h.symm
  | some p => exact h.symm

/-- The tests of a relative name, in order: the target itself or its stem, then each candidate. -/
def relativeTests (config : Config) (source currentFile : String) : List (String → Bool) :=
  let target := target source currentFile
  let stem := Path.withoutEnding (config.extensions.map String.toList) target
  (fun p => Path.normalize p.toList == target ||
      Path.withoutExtension (Path.normalize p.toList) == stem) ::
    (candidates config target).map fun candidate p => Path.normalize p.toList == candidate

theorem relative?_eq_firstHit (config : Config) (source currentFile : String)
    (paths : List String) :
    relative? config source currentFile paths =
      firstHit (relativeTests config source currentFile) paths := by
  simp only [relative?, firstWhere_withForm, firstHit, relativeTests, List.findSome?_cons,
    List.findSome?_map]
  cases paths.find? _ with
  | none => rfl
  | some p => rfl

/-- The tests of a bare name, in order: its own stem, then an index file's. -/
def bareTests (config : Config) (modulePath : List Char) : List (String → Bool) :=
  let stem := fun p : String =>
    Path.withoutEnding (config.extensions.map String.toList) (Path.normalize p.toList)
  [fun p => Path.endsAtSegment (stem p) modulePath, fun p => isIndexOf config modulePath (stem p)]

theorem bare?_eq_firstHit (config : Config) (modulePath : List Char) (paths : List String) :
    bare? config modulePath paths = firstHit (bareTests config modulePath) paths := by
  simp only [bare?, firstWhere_withForm, firstHit, bareTests, List.findSome?_cons,
    List.findSome?_nil]
  cases paths.find? _ with
  | none => cases paths.find? _ <;> rfl
  | some p => rfl

/-! ## Independence -/

/-- A resolver's answer, messages included, does not change when all occurrences of a path other
than the answer are removed; and when a path is inserted anywhere, it does not change or becomes
that path. -/
structure IgnoresOthers (resolve : List String → Option String × List Log.Entry) : Prop where
  remove (paths : List String) (q : String) (h : (resolve paths).1 ≠ some q) :
    resolve (paths.filter (· != q)) = resolve paths
  insert (before after : List String) (q : String) :
    resolve (before ++ q :: after) = resolve (before ++ after) ∨
      resolve (before ++ q :: after) = (some q, [])

/-- A search whose messages depend on the paths only through the answer. -/
theorem ignoresOthers_of_firstHit (tests : List (String → Bool)) (missing : List Log.Entry)
    {resolve : List String → Option String × List Log.Entry}
    (hit : ∀ paths p, firstHit tests paths = some p → resolve paths = (some p, []))
    (miss : ∀ paths, firstHit tests paths = none → resolve paths = (none, missing)) :
    IgnoresOthers resolve := by
  have answer (paths : List String) : (resolve paths).1 = firstHit tests paths := by
    cases h : firstHit tests paths with
    | some p => rw [hit paths p h]
    | none => rw [miss paths h]
  have same {paths others : List String} (h : firstHit tests paths = firstHit tests others) :
      resolve paths = resolve others := by
    cases ho : firstHit tests others with
    | some p => rw [hit paths p (h.trans ho), hit others p ho]
    | none => rw [miss paths (h.trans ho), miss others ho]
  constructor
  · intro paths q h
    rw [answer] at h
    exact same (firstHit_without h)
  · intro before after q
    rcases firstHit_insert tests before after q with h | h
    · exact .inl (same h)
    · exact .inr (hit _ q h)

theorem ignoresOthers_const (answer : Option String × List Log.Entry) :
    IgnoresOthers fun _ => answer :=
  ⟨fun _ _ _ => rfl, fun _ _ _ => .inl rfl⟩

theorem resolveRelative_ignoresOthers (config : Config) (source currentFile : String) :
    IgnoresOthers (resolveRelative config source currentFile) := by
  by_cases h : isRelative source = true
  · apply ignoresOthers_of_firstHit (relativeTests config source currentFile)
      [⟨.debug, "Could not resolve \"" ++ source ++ "\" from " ++ currentFile⟩]
    · intro paths p hp
      rw [← relative?_eq_firstHit] at hp
      rw [resolveRelative, if_pos h, hp]
    · intro paths hp
      rw [← relative?_eq_firstHit] at hp
      rw [resolveRelative, if_pos h, hp]
  · have hconst : resolveRelative config source currentFile = fun _ => (none, []) := by
      funext paths
      rw [resolveRelative, if_neg h]
    rw [hconst]
    exact ignoresOthers_const _

theorem bareModule_ignoresOthers (config : Config) {module : String}
    (currentFile : Option String) (h : ¬ isRelative module = true) :
    IgnoresOthers fun paths => resolveModule config module paths currentFile := by
  by_cases hempty : (Path.ofModule module.toList).isEmpty = true
  · have hconst : (fun paths => resolveModule config module paths currentFile) =
        fun _ => (none, []) := by
      funext paths
      simp only [resolveModule, if_neg h, if_pos hempty]
    rw [hconst]
    exact ignoresOthers_const _
  · apply ignoresOthers_of_firstHit (bareTests config (Path.ofModule module.toList))
      [⟨.debug, "Could not resolve module \"" ++ module ++ "\""⟩]
    · intro paths p hp
      rw [← bare?_eq_firstHit] at hp
      simp only [resolveModule, if_neg h, if_neg hempty, hp]
    · intro paths hp
      rw [← bare?_eq_firstHit] at hp
      simp only [resolveModule, if_neg h, if_neg hempty, hp]

theorem resolveModule_ignoresOthers (config : Config) (module : String)
    (currentFile : Option String) :
    IgnoresOthers fun paths => resolveModule config module paths currentFile := by
  by_cases h : isRelative module = true
  · simp only [resolveModule, if_pos h]
    cases currentFile.filter (!·.isEmpty) with
    | none => exact ignoresOthers_const _
    | some file => exact resolveRelative_ignoresOthers config module file
  · exact bareModule_ignoresOthers config currentFile h

/-- For every configuration, name and importing file, an irrelevant known path plays no part in
the answer, neither of a relative name nor of any module name. -/
theorem resolution_independent_of_others (config : Config) (name : String) (file : String)
    (currentFile : Option String) :
    IgnoresOthers (resolveRelative config name file) ∧
      IgnoresOthers fun paths => resolveModule config name paths currentFile :=
  ⟨resolveRelative_ignoresOthers config name file,
    resolveModule_ignoresOthers config name currentFile⟩

end SymbolAtlas.Resolution
