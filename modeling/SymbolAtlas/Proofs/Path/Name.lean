import Mathlib.Data.List.Basic
import SymbolAtlas.Path
import SymbolAtlas.Proofs.Text.Pieces

/-! # Paths of names

A relative path without `.`, `..`, empty segments and backslashes is a list of names. It is its
own normal form, its directory is the list without the last name, and a step up from it undoes
its last name.
-/

namespace SymbolAtlas.Path

/-- A segment that a path keeps as it is. -/
structure Name where
  text : List Char
  ne_nil : text ≠ [] := by decide
  not_slash : '/' ∉ text := by decide
  not_backslash : '\\' ∉ text := by decide
  ne_here : text ≠ ['.'] := by decide
  ne_up : text ≠ ['.', '.'] := by decide
  deriving DecidableEq

def ofNames (names : List Name) : List Char := joinWith ['/'] (names.map Name.text)

section OfNames

variable {names : List Name}

theorem ofNames_singleton (n : Name) : ofNames [n] = n.text := joinWith_singleton _ _

theorem ofNames_cons (h : names ≠ []) (n : Name) :
    ofNames (n :: names) = n.text ++ '/' :: ofNames names := by
  rw [ofNames, List.map_cons, joinWith_cons (by simpa using h), List.append_assoc]
  rfl

theorem ofNames_concat (h : names ≠ []) (n : Name) :
    ofNames (names ++ [n]) = ofNames names ++ '/' :: n.text := by
  rw [ofNames, List.map_append, List.map_singleton, joinWith_concat (by simpa using h),
    List.append_assoc]
  rfl

theorem segments_ofNames (h : names ≠ []) : segments (ofNames names) = names.map Name.text := by
  apply splitAt_joinWith (by simpa using h)
  rw [List.forall_mem_map]
  exact fun n _ => n.not_slash

theorem not_backslash_ofNames (names : List Name) : '\\' ∉ ofNames names := by
  intro h
  rcases mem_joinWith h with h | ⟨_, htext, h⟩
  · exact absurd h (by decide)
  · obtain ⟨n, _, rfl⟩ := List.mem_map.mp htext
    exact n.not_backslash h

theorem ofNames_ne_nil (h : names ≠ []) : ofNames names ≠ [] := by
  obtain ⟨n, names, rfl⟩ := List.exists_cons_of_ne_nil h
  by_cases hnil : names = []
  · rw [hnil, ofNames_singleton]
    exact n.ne_nil
  · rw [ofNames_cons hnil]
    simp

theorem head?_ofNames (names : List Name) : (ofNames names).head? ≠ some '/' := by
  cases names with
  | nil => exact Option.some_ne_none _ ∘ Eq.symm
  | cons n names =>
    have hhead : (ofNames (n :: names)).head? = n.text.head? := by
      by_cases hnil : names = []
      · rw [hnil, ofNames_singleton]
      · rw [ofNames_cons hnil, List.head?_append_of_ne_nil n.text n.ne_nil]
    rw [hhead]
    exact fun h => n.not_slash (List.mem_of_mem_head? h)

theorem getLast?_ofNames (names : List Name) : (ofNames names).getLast? ≠ some '/' := by
  rcases List.eq_nil_or_concat names with rfl | ⟨names, n, rfl⟩
  · exact Option.some_ne_none _ ∘ Eq.symm
  · have hlast : (ofNames (names ++ [n])).getLast? = n.text.getLast? := by
      by_cases hnil : names = []
      · rw [hnil, List.nil_append, ofNames_singleton]
      · obtain ⟨c, cs, hc⟩ := List.exists_cons_of_ne_nil n.ne_nil
        rw [ofNames_concat hnil, List.getLast?_append_cons, hc, List.getLast?_cons_cons]
    rw [List.concat_eq_append, hlast]
    exact fun h => n.not_slash (List.mem_of_getLast? h)

theorem isAbsolute_ofNames (names : List Name) : isAbsolute (ofNames names) = false :=
  beq_eq_false_iff_ne.mpr (head?_ofNames names)

end OfNames

/-! ## Normal forms -/

theorem withSlashes_of_not_mem {path : List Char} (h : '\\' ∉ path) : withSlashes path = path :=
  map_replace_of_not_mem h

section ResolveSegment

variable (atRoot : Bool) (done : List (List Char))

theorem resolveSegment_name (n : Name) : resolveSegment atRoot done n.text = n.text :: done := by
  simp [resolveSegment, n.ne_nil, n.ne_here, n.ne_up]

theorem resolveSegment_up (n : Name) :
    resolveSegment atRoot (n.text :: done) ['.', '.'] = done := by
  simp [resolveSegment, n.ne_up]

theorem foldl_resolveSegment_names (names : List Name) :
    (names.map Name.text).foldl (resolveSegment atRoot) done =
      (names.map Name.text).reverse ++ done := by
  induction names generalizing done with
  | nil => rfl
  | cons n names ih =>
    rw [List.map_cons, List.foldl_cons, resolveSegment_name, ih, List.reverse_cons,
      List.append_assoc, List.singleton_append]

/-- As many steps up as there are names undo the names. -/
theorem foldl_resolveSegment_up (names : List Name) :
    (List.replicate names.length ['.', '.']).foldl (resolveSegment atRoot)
      (names.map Name.text ++ done) = done := by
  induction names with
  | nil => rfl
  | cons n names ih =>
    rw [List.length_cons, List.replicate_succ, List.map_cons, List.cons_append, List.foldl_cons,
      resolveSegment_up, ih]

end ResolveSegment

/-- A relative path whose segments resolve to names is brought to the path of the names. -/
theorem resolve_of_resolvedSegments {path : List Char} {names : List Name} (hne : names ≠ [])
    (hrelative : isAbsolute path = false) (hlast : path.getLast? ≠ some '/')
    (h : resolvedSegments path = names.map Name.text) : resolve path = ofNames names := by
  have hbody : (ofNames names).isEmpty = false := by
    simpa using ofNames_ne_nil hne
  rw [ofNames] at hbody
  simp only [resolve, h, hrelative, hbody, if_neg hlast]
  simp [ofNames]

theorem withoutFinalSlash_of_getLast? {path : List Char} (h : path.getLast? ≠ some '/') :
    withoutFinalSlash path = path := by
  rw [withoutFinalSlash]
  split
  · next c before hreverse =>
    rw [List.getLast?_eq_head?_reverse, hreverse] at h
    exact absurd rfl h
  · rfl

theorem resolvedSegments_ofNames {names : List Name} (h : names ≠ []) :
    resolvedSegments (ofNames names) = names.map Name.text := by
  rw [resolvedSegments, segments_ofNames h, foldl_resolveSegment_names, List.append_nil,
    List.reverse_reverse]

theorem resolve_ofNames {names : List Name} (h : names ≠ []) :
    resolve (ofNames names) = ofNames names :=
  resolve_of_resolvedSegments h (isAbsolute_ofNames names) (getLast?_ofNames names)
    (resolvedSegments_ofNames h)

theorem normalize_ofNames {names : List Name} (h : names ≠ []) :
    normalize (ofNames names) = ofNames names := by
  have hhere : ofNames names ≠ ['.', '/'] := fun heq => getLast?_ofNames names (by rw [heq]; rfl)
  simp only [normalize, withSlashes_of_not_mem (not_backslash_ofNames names), resolve_ofNames h,
    if_neg hhere]
  exact withoutFinalSlash_of_getLast? (getLast?_ofNames names)

/-- From a relative directory, a path leads to the names that the segments of both resolve to. -/
theorem join_of_foldl {directory path : List Char} {names : List Name} (hne : names ≠ [])
    (hslash : '\\' ∉ directory) (hrelative : isAbsolute directory = false)
    (hdirectory : directory ≠ []) (hpath : path ≠ []) (hlast : path.getLast? ≠ some '/')
    (h : (segments directory ++ segments path).foldl (resolveSegment false) [] =
      (names.map Name.text).reverse) : join directory path = ofNames names := by
  have hparts : [withSlashes directory, path].filter (!·.isEmpty) = [directory, path] := by
    rw [withSlashes_of_not_mem hslash]
    simp [hdirectory, hpath]
  have hjoined : joinWith ['/'] [directory, path] = directory ++ '/' :: path := by
    rw [joinWith_cons (List.cons_ne_nil _ _), joinWith_singleton, List.append_assoc]
    rfl
  have habsolute : isAbsolute (directory ++ '/' :: path) = false := by
    rw [isAbsolute, List.head?_append_of_ne_nil directory hdirectory]
    exact hrelative
  have hresolved : resolve (directory ++ '/' :: path) = ofNames names := by
    apply resolve_of_resolvedSegments hne habsolute
    · obtain ⟨c, cs, rfl⟩ := List.exists_cons_of_ne_nil hpath
      rw [List.getLast?_append_cons, List.getLast?_cons_cons]
      exact hlast
    · rw [resolvedSegments, habsolute, segments, splitAt_append]
      rw [segments, segments] at h
      rw [h, List.reverse_reverse]
  simp only [join, hparts, hjoined, hresolved, List.isEmpty_cons, Bool.false_eq_true, if_false]
  exact normalize_ofNames hne

/-! ## Directories and extensions -/

theorem dropWhile_final_slashes {path : List Char} (h : path.getLast? ≠ some '/') :
    path.reverse.dropWhile (· == '/') = path.reverse := by
  rw [List.getLast?_eq_head?_reverse] at h
  cases hreverse : path.reverse with
  | nil => rfl
  | cons c cs =>
    rw [hreverse] at h
    exact List.dropWhile_cons_of_neg (by simpa using h)

theorem dropWhile_name (n : Name) (before : List Char) :
    (n.text.reverse ++ before).dropWhile (· != '/') = before.dropWhile (· != '/') := by
  apply List.dropWhile_append_of_pos
  intro c hc
  rw [bne_iff_ne]
  rintro rfl
  exact n.not_slash (List.mem_reverse.mp hc)

/-- The directory of a path of names is the path of the names before the last, or `.`. -/
theorem directory_ofNames (names : List Name) (n : Name) :
    directory (ofNames (names ++ [n])) = if names = [] then ['.'] else ofNames names := by
  simp only [directory, withSlashes_of_not_mem (not_backslash_ofNames _),
    dropWhile_final_slashes (getLast?_ofNames _), isAbsolute_ofNames]
  by_cases hnil : names = []
  · subst hnil
    rw [List.nil_append, ofNames_singleton, ← List.append_nil n.text.reverse, dropWhile_name]
    rfl
  · have hne := ofNames_ne_nil hnil
    have hhead := head?_ofNames names
    rw [if_neg hnil, ofNames_concat hnil, List.reverse_append, List.reverse_cons,
      List.append_assoc, dropWhile_name, List.singleton_append,
      List.dropWhile_cons_of_neg (by decide)]
    -- The directory is no root: its path has a character, and the first one is no slash.
    split
    · next h => exact absurd h (List.cons_ne_nil _ _)
    · next h => exact absurd (List.reverse_eq_nil_iff.mp (List.cons.inj h).2) hne
    · next h =>
      rw [List.reverse_eq_iff.mp (List.cons.inj h).2] at hhead
      exact absurd rfl hhead
    · next h => rw [← (List.cons.inj h).2, List.reverse_reverse]

/-- Without its extension a path is what stands before the extension. -/
theorem withoutExtension_append {path ending : List Char}
    (h : extension (path ++ ending) = ending) : withoutExtension (path ++ ending) = path := by
  rw [withoutExtension, h, List.reverse_append, ← utf16Length_reverse, dropUnits_append,
    List.reverse_reverse]

end SymbolAtlas.Path
