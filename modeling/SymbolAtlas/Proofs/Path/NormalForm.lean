import SymbolAtlas.Proofs.Path.Name

/-! # The normal form of a path

Resolving the segments of a path leaves steps up and then names, and at the root no steps up. So the
normal form of a path is `.`, the root, or the path of such segments; a final slash is left only
behind a line break. A path in normal form is its own normal form, and any directory may be brought
to normal form before a path is joined to it.
-/

namespace SymbolAtlas.Path

/-! ## Resolved segments -/

/-- The segments of some steps up and the names after them. -/
def stepsOf (levels : Nat) (names : List Name) : List (List Char) :=
  List.replicate levels ['.', '.'] ++ names.map Name.text

theorem reverse_stepsOf_concat (levels : Nat) (names : List Name) (n : Name) :
    (stepsOf levels (names ++ [n])).reverse = n.text :: (stepsOf levels names).reverse := by
  simp [stepsOf]

theorem reverse_stepsOf_nil (levels : Nat) :
    (stepsOf levels []).reverse = List.replicate levels ['.', '.'] := by
  simp [stepsOf]

/-- One more segment leaves steps up and names. -/
theorem exists_resolveSegment {atRoot : Bool} {levels : Nat} (names : List Name)
    (hroot : atRoot = true → levels = 0) {segment : List Char} (hslash : '/' ∉ segment)
    (hbackslash : '\\' ∉ segment) :
    ∃ levels' names', resolveSegment atRoot (stepsOf levels names).reverse segment =
      (stepsOf levels' names').reverse ∧ (atRoot = true → levels' = 0) := by
  by_cases hskip : segment = [] ∨ segment = ['.']
  · exact ⟨levels, names, by simp [resolveSegment, hskip], hroot⟩
  obtain ⟨hne, hhere⟩ := not_or.mp hskip
  by_cases hup : segment = ['.', '.']
  · subst hup
    rcases List.eq_nil_or_concat names with rfl | ⟨before, n, rfl⟩
    · rw [reverse_stepsOf_nil]
      cases levels with
      | zero =>
        cases atRoot with
        | true => exact ⟨0, [], rfl, fun _ => rfl⟩
        | false => exact ⟨1, [], rfl, fun h => Bool.noConfusion h⟩
      | succ levels =>
        refine ⟨levels + 2, [], ?_, fun h => absurd (hroot h) (Nat.succ_ne_zero levels)⟩
        rw [reverse_stepsOf_nil]
        rfl
    · refine ⟨levels, before, ?_, hroot⟩
      rw [List.concat_eq_append, reverse_stepsOf_concat, resolveSegment_up]
  · refine ⟨levels, names ++ [⟨segment, hne, hslash, hbackslash, hhere, hup⟩], ?_, hroot⟩
    rw [reverse_stepsOf_concat, ← resolveSegment_name]

theorem exists_foldl_resolveSegment {atRoot : Bool} {segments : List (List Char)}
    (h : ∀ segment ∈ segments, '/' ∉ segment ∧ '\\' ∉ segment) (levels : Nat)
    (names : List Name) (hroot : atRoot = true → levels = 0) :
    ∃ levels' names', segments.foldl (resolveSegment atRoot) (stepsOf levels names).reverse =
      (stepsOf levels' names').reverse ∧ (atRoot = true → levels' = 0) := by
  induction segments generalizing levels names with
  | nil => exact ⟨levels, names, rfl, hroot⟩
  | cons segment segments ih =>
    obtain ⟨hsegment, hsegments⟩ := List.forall_mem_cons.mp h
    obtain ⟨levels', names', hstep, hroot'⟩ :=
      exists_resolveSegment names hroot hsegment.1 hsegment.2
    rw [List.foldl_cons, hstep]
    exact ih hsegments _ names' hroot'

/-- A path without backslashes resolves to steps up and names, at the root to names only. -/
theorem exists_resolvedSegments {path : List Char} (h : '\\' ∉ path) :
    ∃ levels names, resolvedSegments path = stepsOf levels names ∧
      (isAbsolute path = true → levels = 0) := by
  have hsegments : ∀ segment ∈ segments path, '/' ∉ segment ∧ '\\' ∉ segment :=
    fun segment hsegment => ⟨not_mem_of_mem_splitAt hsegment,
      fun hmem => h (mem_of_mem_splitAt hsegment hmem)⟩
  obtain ⟨levels, names, hfold, hroot⟩ :=
    exists_foldl_resolveSegment hsegments 0 [] (fun _ => rfl)
  refine ⟨levels, names, ?_, hroot⟩
  rw [resolvedSegments]
  exact List.reverse_eq_iff.mpr hfold

theorem segment_of_mem_stepsOf {levels : Nat} {names : List Name} {step : List Char}
    (h : step ∈ stepsOf levels names) : step ≠ [] ∧ '/' ∉ step ∧ '\\' ∉ step := by
  rcases List.mem_append.mp h with h | h
  · rw [List.eq_of_mem_replicate h]
    decide
  · obtain ⟨n, _, rfl⟩ := List.mem_map.mp h
    exact ⟨n.ne_nil, n.not_slash, n.not_backslash⟩

/-- Steps up that no name precedes stay. -/
theorem foldl_resolveSegment_ups (levels done : Nat) :
    (List.replicate levels ['.', '.']).foldl (resolveSegment false)
      (List.replicate done ['.', '.']) = List.replicate (done + levels) ['.', '.'] := by
  induction levels generalizing done with
  | zero => rfl
  | succ levels ih =>
    have hstep : resolveSegment false (List.replicate done ['.', '.']) ['.', '.'] =
        List.replicate (done + 1) ['.', '.'] := by
      cases done <;> rfl
    rw [List.replicate_succ, List.foldl_cons, hstep, ih, Nat.add_assoc, Nat.add_comm 1]

theorem foldl_resolveSegment_stepsOf {atRoot : Bool} {levels : Nat} (names : List Name)
    (hroot : atRoot = true → levels = 0) :
    (stepsOf levels names).foldl (resolveSegment atRoot) [] = (stepsOf levels names).reverse := by
  have hups : (List.replicate levels ['.', '.']).foldl (resolveSegment atRoot) [] =
      List.replicate levels ['.', '.'] := by
    cases atRoot with
    | true => rw [hroot rfl]; rfl
    | false => exact (foldl_resolveSegment_ups levels 0).trans (by rw [Nat.zero_add])
  rw [stepsOf, List.foldl_append, hups, foldl_resolveSegment_names, List.reverse_append,
    List.reverse_replicate]

/-! ## Paths of resolved segments -/

/-- What a path with some segments left is resolved to. -/
structure Resolved where
  isAbsolute : Bool
  levels : Nat
  names : List Name
  /-- Whether a slash follows the last segment. -/
  isTrailed : Bool
  levels_eq : isAbsolute = true → levels = 0
  steps_ne : stepsOf levels names ≠ []

namespace Resolved

variable (r : Resolved)

/-- The segments left, with an empty one before the root's slash and one after the final slash. -/
def segments : List (List Char) :=
  (if r.isAbsolute then [[]] else []) ++ stepsOf r.levels r.names ++
    if r.isTrailed then [[]] else []

def path : List Char := joinWith ['/'] r.segments

theorem segments_ne_nil : r.segments ≠ [] := by
  simp [segments, r.steps_ne]

theorem segments_path : Path.segments r.path = r.segments := by
  apply splitAt_joinWith r.segments_ne_nil
  intro segment h
  have hempty (b : Bool) (h : segment ∈ if b then [[]] else []) : '/' ∉ segment := by
    cases b with
    | true => exact List.mem_singleton.mp h ▸ List.not_mem_nil
    | false => exact absurd h List.not_mem_nil
  rcases List.mem_append.mp h with h | h
  · rcases List.mem_append.mp h with h | h
    · exact hempty _ h
    · exact (segment_of_mem_stepsOf h).2.1
  · exact hempty _ h

theorem not_backslash_path : '\\' ∉ r.path := by
  intro h
  rcases mem_joinWith h with h | ⟨segment, hsegment, h⟩
  · exact absurd h (by decide)
  · have hempty (b : Bool) (h' : segment ∈ if b then [[]] else []) : False := by
      cases b with
      | true => exact absurd (List.mem_singleton.mp h' ▸ h) List.not_mem_nil
      | false => exact absurd h' List.not_mem_nil
    rcases List.mem_append.mp hsegment with hsegment | hsegment
    · rcases List.mem_append.mp hsegment with hsegment | hsegment
      · exact hempty _ hsegment
      · exact (segment_of_mem_stepsOf hsegment).2.2 h
    · exact hempty _ hsegment

/-- The path is the root's slash, the segments left and the final slash. -/
theorem path_eq : r.path = (if r.isAbsolute then ['/'] else []) ++
    joinWith ['/'] (stepsOf r.levels r.names) ++ if r.isTrailed then ['/'] else [] := by
  have hroot : joinWith ['/'] ((if r.isAbsolute then [[]] else []) ++ stepsOf r.levels r.names) =
      (if r.isAbsolute then ['/'] else []) ++ joinWith ['/'] (stepsOf r.levels r.names) := by
    cases r.isAbsolute with
    | true => exact joinWith_cons r.steps_ne _ _
    | false => rfl
  rw [path, segments, ← hroot]
  cases r.isTrailed with
  | true => exact (joinWith_concat (by simp [r.steps_ne]) _ _).trans (List.append_nil _)
  | false => rw [if_neg Bool.false_ne_true, if_neg Bool.false_ne_true, List.append_nil,
      List.append_nil]

theorem exists_steps_cons : ∃ c cs steps, stepsOf r.levels r.names = (c :: cs) :: steps ∧
    c ≠ '/' := by
  obtain ⟨step, steps, hsteps⟩ := List.exists_cons_of_ne_nil r.steps_ne
  have hmem : step ∈ stepsOf r.levels r.names := by
    rw [hsteps]
    exact List.mem_cons_self
  obtain ⟨hne, hslash, -⟩ := segment_of_mem_stepsOf hmem
  obtain ⟨c, cs, rfl⟩ := List.exists_cons_of_ne_nil hne
  refine ⟨c, cs, steps, hsteps, ?_⟩
  rintro rfl
  exact hslash List.mem_cons_self

theorem isAbsolute_path : Path.isAbsolute r.path = r.isAbsolute := by
  rw [Path.isAbsolute, path_eq]
  cases r.isAbsolute with
  | true => rfl
  | false =>
    obtain ⟨c, cs, steps, hsteps, hc⟩ := r.exists_steps_cons
    obtain ⟨rest, hrest⟩ := joinWith_cons_eq ['/'] c cs steps
    rw [hsteps, hrest]
    simpa using hc

/-- The same path without a final slash. -/
def untrailed : Resolved := { r with isTrailed := false }

theorem path_of_isTrailed (h : r.isTrailed = true) : r.path = r.untrailed.path ++ ['/'] := by
  rw [path_eq, path_eq, if_pos h]
  exact congrArg (· ++ ['/']) (List.append_nil _).symm

theorem untrailed_of_not (h : ¬ r.isTrailed = true) : r.untrailed = r := by
  rw [untrailed, ← Bool.eq_false_iff.mpr h]

/-- The last segment has a last character. -/
theorem getLast?_untrailed : ∃ c, r.untrailed.path.getLast? = some c ∧ c ≠ '/' := by
  obtain ⟨hne, hslash, -⟩ := segment_of_mem_stepsOf (List.getLast_mem r.steps_ne)
  have hbody : (joinWith ['/'] (stepsOf r.levels r.names)).getLast? =
      some (((stepsOf r.levels r.names).getLast r.steps_ne).getLast hne) := by
    conv_lhs => rw [← List.dropLast_append_getLast r.steps_ne]
    rw [getLast?_joinWith_concat _ _ hne, List.getLast?_eq_some_getLast hne]
  refine ⟨_, ?_, fun h => hslash (h ▸ List.getLast_mem hne)⟩
  rw [path_eq]
  exact (congrArg List.getLast? (List.append_nil _)).trans
    (by rw [List.getLast?_append]; exact hbody ▸ Option.some_or)

theorem getLast?_path : r.path.getLast? = some '/' ↔ r.isTrailed = true := by
  by_cases h : r.isTrailed = true
  · rw [r.path_of_isTrailed h, List.getLast?_concat]
    exact iff_of_true rfl h
  · obtain ⟨c, hlast, hc⟩ := r.getLast?_untrailed
    rw [r.untrailed_of_not h] at hlast
    rw [hlast]
    exact iff_of_false (fun h => hc (Option.some.inj h)) h

theorem resolvedSegments_path : resolvedSegments r.path = stepsOf r.levels r.names := by
  have hempty (b : Bool) (done : List (List Char)) :
      (if b then [[]] else []).foldl (resolveSegment r.isAbsolute) done = done := by
    cases b <;> rfl
  rw [resolvedSegments, segments_path, isAbsolute_path, segments, List.foldl_append,
    List.foldl_append, hempty, hempty, foldl_resolveSegment_stepsOf _ r.levels_eq,
    List.reverse_reverse]

/-- A path is resolved to the segments left, with the final slash that it has. -/
theorem resolve_eq_path {path : List Char} (habsolute : Path.isAbsolute path = r.isAbsolute)
    (hsteps : resolvedSegments path = stepsOf r.levels r.names)
    (htrailed : path.getLast? = some '/' ↔ r.isTrailed = true) : resolve path = r.path := by
  have hne : (joinWith ['/'] (stepsOf r.levels r.names)).isEmpty = false := by
    obtain ⟨c, cs, steps, hcons, -⟩ := r.exists_steps_cons
    obtain ⟨rest, hrest⟩ := joinWith_cons_eq ['/'] c cs steps
    rw [hcons, hrest]
    rfl
  simp only [resolve, habsolute, hsteps, hne, path_eq, htrailed, Bool.false_eq_true, if_false]

theorem resolve_path : resolve r.path = r.path :=
  r.resolve_eq_path r.isAbsolute_path r.resolvedSegments_path r.getLast?_path

/-- Whether a final slash comes behind a line break only. -/
def IsNormal : Prop :=
  r.isTrailed = true → ∃ c ∈ r.untrailed.path.getLast?, isLineBreak c = true

theorem isNormal_untrailed : r.untrailed.IsNormal := fun h => Bool.noConfusion h

theorem withoutFinalSlash_path {c : Char} (htrailed : r.isTrailed = true)
    (hc : r.untrailed.path.getLast? = some c) :
    withoutFinalSlash r.path = if isLineBreak c then r.path else r.untrailed.path := by
  obtain ⟨before, hbefore⟩ := List.getLast?_eq_some_iff.mp hc
  have hreverse : r.path.reverse = '/' :: c :: before.reverse := by
    rw [r.path_of_isTrailed htrailed, hbefore]
    simp
  rw [withoutFinalSlash, hreverse, hbefore]
  simp

end Resolved

/-! ## The normal form -/

theorem normalize_eq (path : List Char) :
    normalize path = withoutFinalSlash (resolve (withSlashes path)) := by
  rw [normalize]
  split
  · rename_i h
    rw [h]
    rfl
  · rfl

theorem withSlashes_not_backslash (path : List Char) : '\\' ∉ withSlashes path := by
  intro h
  obtain ⟨c, -, hc⟩ := List.mem_map.mp h
  split at hc
  · exact absurd hc (by decide)
  · rename_i hne
    exact hne hc

/-- A path without backslashes is resolved to the root, to `.` or to the segments left. -/
theorem resolve_cases {path : List Char} (h : '\\' ∉ path) :
    (resolvedSegments path = [] ∧ (resolve path = ['/'] ∧ isAbsolute path = true ∨
      (resolve path = ['.'] ∨ resolve path = ['.', '/']) ∧ isAbsolute path = false)) ∨
    ∃ r : Resolved, resolve path = r.path ∧ r.isAbsolute = isAbsolute path ∧
      stepsOf r.levels r.names = resolvedSegments path := by
  obtain ⟨levels, names, hsteps, hroot⟩ := exists_resolvedSegments h
  by_cases hne : stepsOf levels names = []
  · refine .inl ⟨hsteps.trans hne, ?_⟩
    rw [resolve, hsteps, hne]
    cases isAbsolute path with
    | true => exact .inl ⟨rfl, rfl⟩
    | false =>
      by_cases hlast : path.getLast? = some '/'
      · exact .inr ⟨.inr (by simp [hlast, joinWith]), rfl⟩
      · exact .inr ⟨.inl (by simp [hlast, joinWith]), rfl⟩
  · let r : Resolved := ⟨isAbsolute path, levels, names, path.getLast? == some '/', hroot, hne⟩
    exact .inr ⟨r, r.resolve_eq_path rfl hsteps (by simp [r]), rfl, hsteps.symm⟩

/-- The normal form of a path is the root or `.`, or it is the path of the segments left. -/
theorem normalize_cases (path : List Char) :
    (resolvedSegments (withSlashes path) = [] ∧
      normalize path = if isAbsolute (withSlashes path) then ['/'] else ['.']) ∨
    ∃ r : Resolved, r.IsNormal ∧ normalize path = r.path ∧
      r.isAbsolute = isAbsolute (withSlashes path) ∧
      stepsOf r.levels r.names = resolvedSegments (withSlashes path) := by
  rw [normalize_eq]
  rcases resolve_cases (withSlashes_not_backslash path) with
    ⟨hnil, ⟨h, ha⟩ | ⟨h | h, ha⟩⟩ | ⟨r, h, ha, hsteps⟩
  iterate 3
    · rw [h, ha]
      exact .inl ⟨hnil, rfl⟩
  · rw [h]
    by_cases htrailed : r.isTrailed = true
    · obtain ⟨c, hc, -⟩ := r.getLast?_untrailed
      rw [r.withoutFinalSlash_path htrailed hc]
      by_cases hbreak : isLineBreak c = true
      · exact .inr ⟨r, fun _ => ⟨c, hc, hbreak⟩, if_pos hbreak, ha, hsteps⟩
      · exact .inr ⟨r.untrailed, r.isNormal_untrailed, if_neg hbreak, ha, hsteps⟩
    · refine .inr ⟨r, fun h => absurd h htrailed, ?_, ha, hsteps⟩
      exact withoutFinalSlash_of_getLast? fun h => htrailed (r.getLast?_path.mp h)

theorem Resolved.normalize_path {r : Resolved} (h : r.IsNormal) : normalize r.path = r.path := by
  rw [normalize_eq, withSlashes_of_not_mem r.not_backslash_path, r.resolve_path]
  by_cases htrailed : r.isTrailed = true
  · obtain ⟨c, hc, hbreak⟩ := h htrailed
    rw [r.withoutFinalSlash_path htrailed hc, if_pos hbreak]
  · exact withoutFinalSlash_of_getLast? fun hlast => htrailed (r.getLast?_path.mp hlast)

/-- A path in normal form: `.`, the root, or steps up and then names. There are no steps up from the
root, and a final slash comes behind a line break only. -/
structure IsNormalForm (path : List Char) : Prop where
  not_backslash : '\\' ∉ path
  segments_eq : path = ['.'] ∨ path = ['/'] ∨
    ∃ r : Resolved, segments path = r.segments ∧ r.isAbsolute = isAbsolute path
  isLineBreak_of_final : ∀ before c, path = before ++ [c, '/'] → isLineBreak c = true

theorem isNormalForm_normalize (path : List Char) : IsNormalForm (normalize path) := by
  rcases normalize_cases path with ⟨-, h⟩ | ⟨r, hr, h, -, -⟩
  · rw [h]
    have hshort (c d : Char) (before : List Char) : [c] ≠ before ++ [d, '/'] := fun heq => by
      have := congrArg List.length heq
      simp at this
    cases isAbsolute (withSlashes path) with
    | true => exact ⟨by decide, .inr (.inl rfl), fun before c heq => absurd heq (hshort _ _ _)⟩
    | false => exact ⟨by decide, .inl rfl, fun before c heq => absurd heq (hshort _ _ _)⟩
  · rw [h]
    refine ⟨r.not_backslash_path, .inr (.inr ⟨r, r.segments_path, r.isAbsolute_path.symm⟩), ?_⟩
    intro before c heq
    have htrailed : r.isTrailed = true := r.getLast?_path.mp (by rw [heq]; simp)
    obtain ⟨d, hd, hbreak⟩ := hr htrailed
    have hcut : r.untrailed.path ++ ['/'] = before ++ [c] ++ ['/'] := by
      rw [← r.path_of_isTrailed htrailed, heq, List.append_assoc]
      rfl
    rw [List.append_cancel_right hcut, List.getLast?_concat] at hd
    rwa [Option.some.inj hd]

/-- The paths in normal form are those that are their own normal form. -/
theorem normalize_eq_self_iff {path : List Char} : normalize path = path ↔ IsNormalForm path := by
  constructor
  · intro h
    rw [← h]
    exact isNormalForm_normalize path
  · rintro ⟨-, rfl | rfl | ⟨r, hsegments, -⟩, hfinal⟩
    · rfl
    · rfl
    · obtain rfl : path = r.path := by
        rw [← joinWith_splitAt '/' path]
        exact congrArg (joinWith ['/']) hsegments
      refine r.normalize_path fun htrailed => ?_
      obtain ⟨c, hc, -⟩ := r.getLast?_untrailed
      obtain ⟨before, hbefore⟩ := List.getLast?_eq_some_iff.mp hc
      refine ⟨c, hc, hfinal before c ?_⟩
      rw [r.path_of_isTrailed htrailed, hbefore, List.append_assoc]
      rfl

theorem normalize_normalize (path : List Char) : normalize (normalize path) = normalize path :=
  normalize_eq_self_iff.mpr (isNormalForm_normalize path)

/-! ## Joining -/

/-- Bringing a path to normal form changes neither what it is resolved from nor its segments. -/
theorem resolvedSegments_normalize (path : List Char) :
    isAbsolute (normalize path) = isAbsolute (withSlashes path) ∧
      resolvedSegments (normalize path) = resolvedSegments (withSlashes path) := by
  rcases normalize_cases path with ⟨hnil, h⟩ | ⟨r, -, h, habsolute, hsteps⟩
  · rw [h, hnil]
    cases isAbsolute (withSlashes path) <;> exact ⟨rfl, rfl⟩
  · rw [h, r.isAbsolute_path, r.resolvedSegments_path]
    exact ⟨habsolute, hsteps⟩

theorem normalize_ne_nil (path : List Char) : normalize path ≠ [] := by
  rcases normalize_cases path with ⟨-, h⟩ | ⟨r, -, h, -, -⟩
  · rw [h]
    cases isAbsolute (withSlashes path) <;> decide
  · obtain ⟨c, cs, steps, hcons, -⟩ := r.exists_steps_cons
    obtain ⟨rest, hrest⟩ := joinWith_cons_eq ['/'] c cs steps
    rw [h, r.path_eq, hcons, hrest]
    simp

/-- A path that has been resolved has the same normal form. -/
theorem normalize_resolve {path : List Char} (h : '\\' ∉ path) :
    normalize (resolve path) = normalize path := by
  rw [normalize_eq, normalize_eq, withSlashes_of_not_mem h]
  rcases resolve_cases h with ⟨-, ⟨hr, -⟩ | ⟨hr | hr, -⟩⟩ | ⟨r, hr, -, -⟩
  iterate 3
    · rw [hr]
      rfl
  · rw [hr, withSlashes_of_not_mem r.not_backslash_path, r.resolve_path]

theorem resolve_congr {path path' : List Char} (habsolute : isAbsolute path = isAbsolute path')
    (hsegments : resolvedSegments path = resolvedSegments path')
    (hlast : path.getLast? = path'.getLast?) : resolve path = resolve path' := by
  simp only [resolve, habsolute, hsegments, hlast]

/-- What a directory is resolved to is all that a path below it depends on. -/
theorem resolve_below {directory directory' : List Char} (hne : directory ≠ [])
    (hne' : directory' ≠ []) (habsolute : isAbsolute directory = isAbsolute directory')
    (hsegments : resolvedSegments directory = resolvedSegments directory')
    {path : List Char} (hpath : path ≠ []) :
    resolve (directory ++ '/' :: path) = resolve (directory' ++ '/' :: path) := by
  have hbelow {d : List Char} (hd : d ≠ []) : isAbsolute (d ++ '/' :: path) = isAbsolute d := by
    rw [isAbsolute, isAbsolute, List.head?_append_of_ne_nil d hd]
  apply resolve_congr
  · rw [hbelow hne, hbelow hne', habsolute]
  · rw [resolvedSegments, resolvedSegments, List.reverse_inj, habsolute] at hsegments
    rw [resolvedSegments, resolvedSegments, hbelow hne, hbelow hne', habsolute, segments,
      segments, splitAt_append, splitAt_append, List.foldl_append, List.foldl_append]
    rw [segments, segments] at hsegments
    rw [hsegments]
  · obtain ⟨c, cs, rfl⟩ := List.exists_cons_of_ne_nil hpath
    rw [List.getLast?_append_cons, List.getLast?_append_cons]

/-- A directory may be brought to normal form before a path is joined to it. -/
theorem join_normalize {directory : List Char} (hne : directory ≠ []) (path : List Char) :
    join (normalize directory) path = join directory path := by
  have hslashes : withSlashes (normalize directory) = normalize directory :=
    withSlashes_of_not_mem ((isNormalForm_normalize directory).not_backslash)
  have hne' : withSlashes directory ≠ [] := by simpa [withSlashes] using hne
  obtain ⟨habsolute, hsegments⟩ := resolvedSegments_normalize directory
  by_cases hpath : path = []
  · subst hpath
    have hjoin {d : List Char} (hd : withSlashes d ≠ []) :
        join d [] = normalize (withSlashes d) := by
      rw [← normalize_resolve (withSlashes_not_backslash d)]
      simp [join, hd, joinWith]
    rw [hjoin hne', hjoin (hslashes.symm ▸ normalize_ne_nil directory), hslashes,
      normalize_normalize, normalize_eq, normalize_eq,
      withSlashes_of_not_mem (withSlashes_not_backslash directory)]
  · have hjoin {d : List Char} (hd : withSlashes d ≠ []) :
        join d path = normalize (resolve (withSlashes d ++ '/' :: path)) := by
      simp [join, hd, hpath, joinWith]
    rw [hjoin hne', hjoin (hslashes.symm ▸ normalize_ne_nil directory), hslashes,
      resolve_below (normalize_ne_nil directory) hne' habsolute hsegments hpath]

/-- Bringing a path to normal form twice is the same as once; the form is `.`, the root, or steps up
and then names; and a path is joined to a directory as it is to the directory's normal form. -/
theorem normalForm_normalize (path : List Char) :
    normalize (normalize path) = normalize path ∧ IsNormalForm (normalize path) ∧
      ∀ directory, directory ≠ [] → ∀ below,
        join (normalize directory) below = join directory below :=
  ⟨normalize_normalize path, isNormalForm_normalize path, fun _ hne below =>
    join_normalize hne below⟩

/-- Backslashes that become separators, and a slash behind a line break. -/
theorem normalForm_normalize_backslashes :
    normalize "..\\a/.//..\\b\n\\".toList = "../b\n/".toList ∧
      IsNormalForm "../b\n/".toList ∧ "c\\.".toList ≠ [] ∧
      join "c\\.".toList "d\\..\\../e".toList = join "c".toList "d\\..\\../e".toList := by
  obtain ⟨-, hform, hjoin⟩ := normalForm_normalize "..\\a/.//..\\b\n\\".toList
  have hpath : normalize "..\\a/.//..\\b\n\\".toList = "../b\n/".toList := by decide
  have hdirectory : normalize "c\\.".toList = "c".toList := by decide
  have hne : "c\\.".toList ≠ [] := by decide
  exact ⟨hpath, hpath ▸ hform, hne, by rw [← hjoin _ hne, hdirectory]⟩

end SymbolAtlas.Path
