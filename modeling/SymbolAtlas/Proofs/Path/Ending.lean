import SymbolAtlas.Path
import SymbolAtlas.Proofs.Text.Regex

/-! # The ending cut off a path

Of some endings the longest that a path has is cut off, whatever their order and their characters.
The same comes of an expression: its text quotes the endings, joins them as the alternatives of one
group, and anchors the group at the end of the path. Its leftmost match is the longest ending, so it
does not matter which alternative is tried first.
-/

namespace SymbolAtlas.Path

/-- What a path is without the longest of some endings, and the path itself where it has none. -/
inductive WithoutLongest (endings : List (List Char)) (path : List Char) : List Char → Prop
  | ending {rest ending : List Char} (mem : ending ∈ endings) (split : path = rest ++ ending)
      (longest : ∀ other ∈ endings, other <:+ path → other.length ≤ ending.length) :
      WithoutLongest endings path rest
  | whole (none : ∀ other ∈ endings, ¬ other <:+ path) : WithoutLongest endings path path

def endingExpression (endings : List (List Char)) : List Char :=
  ['(', '?', ':'] ++ joinWith ['|'] (endings.map Regex.quote) ++ [')', '$']

def cutByExpression (endings : List (List Char)) (path : List Char) : Option (List Char) :=
  if endings.isEmpty then some path
  else (Regex.read (endingExpression endings)).map (Regex.cutFirst · path)

/-! ## The longest ending -/

theorem withoutLongest_withoutEnding (endings : List (List Char)) (path : List Char) :
    WithoutLongest endings path (withoutEnding endings path) := by
  induction path with
  | nil =>
    by_cases hmem : [] ∈ endings
    · exact .ending hmem rfl fun _ _ h => h.length_le
    · exact .whole fun other hother h => hmem (List.suffix_nil.mp h ▸ hother)
  | cons c path ih =>
    by_cases hwhole : endings.contains (c :: path) = true
    · rw [withoutEnding, if_pos hwhole]
      exact .ending (List.contains_iff_mem.mp hwhole) rfl fun _ _ h => h.length_le
    · have hbelow {other : List Char} (hother : other ∈ endings) (h : other <:+ c :: path) :
          other <:+ path := by
        rcases List.suffix_cons_iff.mp h with rfl | h
        · exact absurd (List.contains_iff_mem.mpr hother) hwhole
        · exact h
      rw [withoutEnding, if_neg hwhole]
      generalize withoutEnding endings path = cut at ih
      cases ih with
      | ending mem split longest =>
        exact .ending mem (congrArg (c :: ·) split) fun other hother h =>
          longest other hother (hbelow hother h)
      | whole none => exact .whole fun other hother h => none other hother (hbelow hother h)

namespace WithoutLongest

variable {endings : List (List Char)} {path cut : List Char}

theorem exists_append (h : WithoutLongest endings path cut) :
    ∃ ending, path = cut ++ ending ∧ (ending = [] ∨ ending ∈ endings) := by
  cases h with
  | ending mem split => exact ⟨_, split, .inr mem⟩
  | whole => exact ⟨[], (List.append_nil path).symm, .inl rfl⟩

theorem eq_of_forall (h : WithoutLongest endings path cut)
    (hnone : ∀ ending ∈ endings, ¬ ending <:+ path) : cut = path := by
  cases h with
  | ending mem split => exact absurd ⟨cut, split.symm⟩ (hnone _ mem)
  | whole => rfl

/-- No path has two longest endings. -/
theorem unique {cut' : List Char} (h : WithoutLongest endings path cut)
    (h' : WithoutLongest endings path cut') : cut = cut' := by
  cases h with
  | whole none => exact (h'.eq_of_forall none).symm
  | ending mem split longest =>
    cases h' with
    | whole none => exact absurd ⟨cut, split.symm⟩ (none _ mem)
    | ending mem' split' longest' =>
      have hlength := Nat.le_antisymm (longest' _ mem ⟨cut, split.symm⟩)
        (longest _ mem' ⟨cut', split'.symm⟩)
      exact (List.append_inj' (split.symm.trans split') hlength).1

/-- Neither the order of the endings nor how often one is given counts. -/
theorem of_mem_iff {others : List (List Char)} (h : WithoutLongest endings path cut)
    (hmem : ∀ ending, ending ∈ others ↔ ending ∈ endings) : WithoutLongest others path cut := by
  cases h with
  | ending mem split longest =>
    exact .ending ((hmem _).mpr mem) split fun other hother =>
      longest other ((hmem other).mp hother)
  | whole none => exact .whole fun other hother => none other ((hmem other).mp hother)

end WithoutLongest

theorem exists_withoutEnding_append (endings : List (List Char)) (path : List Char) :
    ∃ ending, path = withoutEnding endings path ++ ending ∧ (ending = [] ∨ ending ∈ endings) :=
  (withoutLongest_withoutEnding endings path).exists_append

theorem prefix_withoutEnding (endings : List (List Char)) (path : List Char) :
    withoutEnding endings path <+: path := by
  obtain ⟨ending, hpath, -⟩ := exists_withoutEnding_append endings path
  exact ⟨ending, hpath.symm⟩

theorem withoutEnding_of_forall {endings : List (List Char)} {path : List Char}
    (h : ∀ ending ∈ endings, endsWith path ending = false) :
    withoutEnding endings path = path := by
  apply (withoutLongest_withoutEnding endings path).eq_of_forall
  intro ending hmem hsuffix
  exact Bool.noConfusion ((List.isSuffixOf_iff_suffix.mpr hsuffix).symm.trans (h ending hmem))

/-! ## The expression -/

/-- The expression for some endings is read as their alternatives and the anchor. -/
theorem read_endingExpression (ending : List Char) (endings : List (List Char)) :
    Regex.read (endingExpression (ending :: endings)) =
      some (.seq (.seq .empty (Regex.anyOf ending endings)) .atEnd) := by
  rw [Regex.read, endingExpression, List.append_assoc]
  exact Regex.readFrom_joinWith [] .opened [] ending endings ['$']

/-- The anchored alternatives match at the head of a text if the whole text is one of the endings,
and then up to the end. -/
theorem mem_rests_anchored {ending cs rest : List Char} {endings : List (List Char)} :
    rest ∈ Regex.rests (.seq (.seq .empty (Regex.anyOf ending endings)) .atEnd) cs ↔
      cs ∈ ending :: endings ∧ rest = [] := by
  rw [Regex.mem_rests_seq]
  constructor
  · rintro ⟨middle, hmiddle, hrest⟩
    obtain ⟨rfl, rfl⟩ := Regex.mem_rests_atEnd.mp hrest
    obtain ⟨start, hstart, hmatch⟩ := Regex.mem_rests_seq.mp hmiddle
    obtain rfl := Regex.mem_rests_empty.mp hstart
    obtain ⟨text, hmem, rfl⟩ := Regex.mem_rests_anyOf.mp hmatch
    rw [List.append_nil]
    exact ⟨hmem, rfl⟩
  · rintro ⟨hmem, rfl⟩
    have hmatch := Regex.mem_rests_anyOf.mpr ⟨cs, hmem, (List.append_nil cs).symm⟩
    exact ⟨[], Regex.mem_rests_seq.mpr ⟨cs, Regex.mem_rests_empty.mpr rfl, hmatch⟩,
      Regex.mem_rests_atEnd.mpr ⟨rfl, rfl⟩⟩

/-- An expression that matches just the endings, and only at the end, cuts off what is sought from
the left. -/
theorem cutFirst_eq_withoutEnding {endings : List (List Char)} {r : Regex}
    (h : ∀ cs rest, rest ∈ r.rests cs ↔ cs ∈ endings ∧ rest = []) (path : List Char) :
    r.cutFirst path = withoutEnding endings path := by
  induction path with
  | nil => rfl
  | cons c path ih =>
    rw [Regex.cutFirst, withoutEnding, ih]
    cases hfirst : r.rests (c :: path) with
    | nil =>
      have hnot : ¬ endings.contains (c :: path) = true := by
        intro hcontains
        have hmatch := (h (c :: path) []).mpr ⟨List.contains_iff_mem.mp hcontains, rfl⟩
        rw [hfirst] at hmatch
        exact List.not_mem_nil hmatch
      rw [if_neg hnot]
      rfl
    | cons rest rests =>
      have hmatch : rest ∈ r.rests (c :: path) := hfirst ▸ List.mem_cons_self
      obtain ⟨hmem, rfl⟩ := (h _ _).mp hmatch
      rw [if_pos (List.contains_iff_mem.mpr hmem)]
      rfl

/-- The expression cuts off what the endings themselves do. -/
theorem cutByExpression_eq (endings : List (List Char)) (path : List Char) :
    cutByExpression endings path = some (withoutEnding endings path) := by
  cases endings with
  | nil => exact congrArg some (withoutEnding_of_forall (List.forall_mem_nil _)).symm
  | cons ending endings =>
    rw [cutByExpression, read_endingExpression]
    exact congrArg some (cutFirst_eq_withoutEnding (fun _ _ => mem_rests_anchored) path)

/-- What is cut off is the first match of the expression for the endings, and it is the longest
ending of the path among them; their order and repetitions do not count. -/
theorem withoutEnding_longest (endings : List (List Char)) (path : List Char) :
    cutByExpression endings path = some (withoutEnding endings path) ∧
      WithoutLongest endings path (withoutEnding endings path) ∧
      ∀ others : List (List Char), (∀ ending, ending ∈ others ↔ ending ∈ endings) →
        withoutEnding others path = withoutEnding endings path := by
  refine ⟨cutByExpression_eq endings path, withoutLongest_withoutEnding endings path, ?_⟩
  intro others hmem
  have hothers := (withoutLongest_withoutEnding endings path).of_mem_iff hmem
  exact (withoutLongest_withoutEnding others path).unique hothers

/-- Endings of which some are empty, given twice, the end of another, or made of characters with a
meaning in expressions. -/
theorem withoutEnding_longest_plus :
    (∀ ending, ending ∈ [[], ['.', 'c', '+'], ['+']] ↔
        ending ∈ [['+'], ['.', 'c', '+'], [], ['+']]) ∧
      withoutEnding [[], ['.', 'c', '+'], ['+']] ['a', '.', 'c', '+'] =
        withoutEnding [['+'], ['.', 'c', '+'], [], ['+']] ['a', '.', 'c', '+'] ∧
      withoutEnding [['+'], ['.', 'c', '+'], [], ['+']] ['a', '.', 'c', '+'] = ['a'] := by
  have hmem (ending : List Char) : ending ∈ [[], ['.', 'c', '+'], ['+']] ↔
      ending ∈ [['+'], ['.', 'c', '+'], [], ['+']] := by
    simp only [List.mem_cons, List.not_mem_nil]
    tauto
  exact ⟨hmem, (withoutEnding_longest _ _).2.2 _ hmem, by decide⟩

end SymbolAtlas.Path
