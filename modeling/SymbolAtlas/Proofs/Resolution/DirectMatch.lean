import SymbolAtlas.Proofs.Resolution.Independence

/-! # Direct matches of a relative name

A known path matches a relative name directly when its normal form is the target, or is the
target's stem once its last extension is dropped. Both count in one search through the listing, so
the exact path is found as long as no file of the same stem is listed before it.
-/

namespace SymbolAtlas.Resolution

def isExact (source currentFile : String) (path : String) : Bool :=
  Path.normalize path.toList == target source currentFile

/-- Whether a known path without its last extension is the target without a configured one. -/
def sharesStem (config : Config) (source currentFile : String) (path : String) : Bool :=
  Path.withoutExtension (Path.normalize path.toList) ==
    Path.withoutEnding (config.extensions.map String.toList) (target source currentFile)

section DirectMatch

variable {config : Config} {source currentFile : String} {paths : List String} {p : String}

/-- The first direct match is the answer, and there is no message. -/
theorem resolveRelative_of_find? (hrelative : isRelative source = true)
    (h : (paths.find? fun q => isExact source currentFile q ||
      sharesStem config source currentFile q) = some p) :
    resolveRelative config source currentFile paths = (some p, []) := by
  have hfirst : relative? config source currentFile paths = some p := by
    rw [relative?_eq_firstHit, firstHit, relativeTests, List.findSome?_cons]
    simp only [isExact, sharesStem] at h
    rw [h]
  rw [resolveRelative, if_pos hrelative, hfirst]

theorem find?_of_none_exact (h : ∀ q ∈ paths, isExact source currentFile q = false) :
    (paths.find? fun q => isExact source currentFile q ||
      sharesStem config source currentFile q) =
      paths.find? (sharesStem config source currentFile) := by
  induction paths with
  | nil => rfl
  | cons q paths ih =>
    rw [List.find?_cons, List.find?_cons, h q List.mem_cons_self, Bool.false_or,
      ih fun q' hq' => h q' (List.mem_cons_of_mem q hq')]

theorem exists_split_of_exact
    (hexact : ∃ p ∈ paths, Path.normalize p.toList = target source currentFile) :
    ∃ before p after, paths = before ++ p :: after ∧ isExact source currentFile p = true ∧
      ∀ q ∈ before, isExact source currentFile q = false := by
  have hsome : (paths.find? (isExact source currentFile)).isSome = true := by
    obtain ⟨p, hp, heq⟩ := hexact
    exact List.find?_isSome.mpr ⟨p, hp, beq_iff_eq.mpr heq⟩
  obtain ⟨p, hp⟩ := Option.isSome_iff_exists.mp hsome
  obtain ⟨hpexact, before, after, rfl, hbefore⟩ := List.find?_eq_some_iff_append.mp hp
  exact ⟨before, p, after, rfl, hpexact, fun q hq => by simpa using hbefore q hq⟩

/-- Where the target itself is known there is an answer: the first path that is the target or has
its stem. It is the target exactly if no path before the first exact one has the target's stem. -/
theorem resolveRelative_of_exact (config : Config) (hrelative : isRelative source = true)
    (hexact : ∃ p ∈ paths, Path.normalize p.toList = target source currentFile) :
    ∃ answer, resolveRelative config source currentFile paths = (some answer, []) ∧
      (paths.find? fun q => isExact source currentFile q ||
        sharesStem config source currentFile q) = some answer ∧
      (Path.normalize answer.toList = target source currentFile ↔
        ∀ q ∈ paths.takeWhile (!isExact source currentFile ·),
          sharesStem config source currentFile q = false) := by
  obtain ⟨before, p, after, rfl, hp, hbefore⟩ := exists_split_of_exact hexact
  -- Before the first exact path only a stem can match, and the search never goes past that path.
  have hfind : ((before ++ p :: after).find? fun q => isExact source currentFile q ||
      sharesStem config source currentFile q) =
      some ((before.find? (sharesStem config source currentFile)).getD p) := by
    rw [List.find?_append, find?_of_none_exact hbefore,
      List.find?_cons_of_pos (by rw [hp, Bool.true_or])]
    cases before.find? (sharesStem config source currentFile) <;> rfl
  have htake : (before ++ p :: after).takeWhile (!isExact source currentFile ·) = before := by
    rw [List.takeWhile_append_of_pos fun q hq => by rw [hbefore q hq]; rfl,
      List.takeWhile_cons_of_neg (by simp [hp]), List.append_nil]
  refine ⟨_, resolveRelative_of_find? hrelative hfind, hfind, ?_⟩
  rw [htake]
  cases hstem : before.find? (sharesStem config source currentFile) with
  | none =>
    refine iff_of_true (beq_iff_eq.mp hp) fun q hq => ?_
    simpa using List.find?_eq_none.mp hstem q hq
  | some q =>
    have hq := List.mem_of_find?_eq_some hstem
    refine iff_of_false (beq_eq_false_iff_ne.mp (hbefore q hq)) fun hall => ?_
    have hshares := List.find?_some hstem
    rw [hall q hq] at hshares
    exact Bool.noConfusion hshares

end DirectMatch

theorem resolveRelative_of_exact_before_stem :
    isRelative "./d.ts" = true ∧
      (∃ p ∈ ["a/c.ts", "a//d.ts", "a/d.js"],
        Path.normalize p.toList = target "./d.ts" "a/b.ts") ∧
      ∃ answer,
        resolveRelative .default "./d.ts" "a/b.ts" ["a/c.ts", "a//d.ts", "a/d.js"] =
          (some answer, []) ∧
        Path.normalize answer.toList = target "./d.ts" "a/b.ts" := by
  have hexact : ∃ p ∈ ["a/c.ts", "a//d.ts", "a/d.js"],
      Path.normalize p.toList = target "./d.ts" "a/b.ts" := by
    decide
  obtain ⟨answer, hanswer, -, hiff⟩ := resolveRelative_of_exact .default (by decide) hexact
  exact ⟨by decide, hexact, answer, hanswer, hiff.mpr (by decide)⟩

/-- A script listed before the typed source of its name takes its place. -/
theorem not_resolveRelative_exact :
    ¬ ∀ (config : Config) (source currentFile : String) (paths : List String),
      isRelative source = true →
        (∃ p ∈ paths, Path.normalize p.toList = target source currentFile) →
          ∃ q, (resolveRelative config source currentFile paths).1 = some q ∧
            Path.normalize q.toList = target source currentFile := by
  intro h
  obtain ⟨q, hq, hexact⟩ := h .default "./d.ts" "a.ts" ["d.js", "d.ts"] (by decide) (by decide)
  have hscript : (resolveRelative .default "./d.ts" "a.ts" ["d.js", "d.ts"]).1 = some "d.js" := by
    decide
  rw [hscript] at hq
  cases hq
  revert hexact
  decide

end SymbolAtlas.Resolution
