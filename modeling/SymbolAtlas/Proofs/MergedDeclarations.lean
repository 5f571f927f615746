import Mathlib.Data.List.Basic
import Mathlib.Data.List.Induction
import SymbolAtlas.Proofs.Declaration

/-! # Which declaration of a name counts

Of all declarations of a name that are found in a file two may count: the first variable, and the
last function or class. The later of the two does. The names keep the order in which they were
first found, and each is declared once.
-/

namespace SymbolAtlas.Declarations

variable {d : Declaration} {ds : Declarations} {found : List Declaration} {name : String}

/-! ## The law -/

def firstValue? (found : List Declaration) (name : String) : Option Nat :=
  found.findIdx? fun d => d.isValue && d.name == name

/-- The index of the last declaration of a name that is no variable. -/
def lastDefinition? (found : List Declaration) (name : String) : Option Nat :=
  (found.reverse.findIdx? fun d => !d.isValue && d.name == name).map (found.length - 1 - ·)

/-- Of the first variable of a name and its last declaration that is no variable, the later one. -/
def counting? (found : List Declaration) (name : String) : Option Declaration :=
  (max (firstValue? found name) (lastDefinition? found name)).bind (found[·]?)

/-- The names found in a file are declared in the order in which they first appear, each once, and
each by the declaration that counts. -/
structure IsMergeOf (found : List Declaration) (ds : Declarations) : Prop where
  names_eq : ds.map Declaration.name = (found.map Declaration.name).eraseDups
  nodup : (ds.map Declaration.name).Nodup
  find?_eq : ∀ name, ds.find? (·.name == name) = counting? found name

/-! ## Declaring a name -/

theorem distinct_iff : ds.Distinct ↔ (ds.map Declaration.name).Nodup := by
  rw [Distinct, List.Nodup, List.pairwise_map]
  exact ⟨fun h => h.imp Ne.symm, fun h => h.imp Ne.symm⟩

theorem map_name_insert (d : Declaration) (ds : Declarations) :
    (insert d ds).map Declaration.name =
      if ds.declares d.name then ds.map Declaration.name
      else ds.map Declaration.name ++ [d.name] := by
  induction ds with
  | nil => rfl
  | cons e es ih =>
    rw [insert_cons, declares, List.any_cons]
    by_cases h : e.name = d.name
    · simp [h]
    · have hne : (e.name == d.name) = false := beq_eq_false_iff_ne.mpr h
      rw [if_neg h, List.map_cons, ih, hne, Bool.false_or, ← declares]
      split <;> rfl

theorem find?_insert_self (d : Declaration) (ds : Declarations) :
    (insert d ds).find? (·.name == d.name) = some d := by
  induction ds with
  | nil => simp [insert]
  | cons e es ih =>
    rw [insert_cons]
    by_cases h : e.name = d.name
    · simp [h]
    · rw [if_neg h, List.find?_cons_of_neg (by simpa using h), ih]

theorem find?_insert_of_ne (h : d.name ≠ name) (ds : Declarations) :
    (insert d ds).find? (·.name == name) = ds.find? (·.name == name) := by
  induction ds with
  | nil => simp [insert, h]
  | cons e es ih =>
    rw [insert_cons]
    by_cases he : e.name = d.name
    · rw [if_pos he, List.find?_cons_of_neg (by simpa using h),
        List.find?_cons_of_neg (by simpa [he] using h)]
    · rw [if_neg he, List.find?_cons, List.find?_cons, ih]

/-! ## Finding one more declaration -/

/-- One more declaration is made unless it is a variable of a name that has been a variable. -/
theorem merge_append_singleton (ds : Declarations) (seen : List String) (found : List Declaration)
    (d : Declaration) : merge ds seen (found ++ [d]) =
      if d.isValue &&
          (seen.contains d.name || found.any fun e => e.isValue && e.name == d.name) then
        merge ds seen found
      else insert d (merge ds seen found) := by
  induction found generalizing ds seen with
  | nil =>
    simp only [List.nil_append, merge, List.any_nil, Bool.or_false]
    cases d.isValue <;> cases seen.contains d.name <;> rfl
  | cons e found ih =>
    rw [List.cons_append, merge, merge, List.any_cons]
    cases hvalue : e.isValue with
    | false => simp only [Bool.false_eq_true, if_false, ih, Bool.false_and, Bool.false_or]
    | true =>
      cases hseen : seen.contains e.name with
      | false =>
        simp only [if_true, Bool.false_eq_true, if_false, ih, List.contains_cons, Bool.true_and]
        rw [Bool.or_left_comm, Bool.or_assoc, BEq.comm (a := d.name)]
      | true =>
        simp only [if_true, ih, Bool.true_and]
        -- A variable of the same name as `e` has been seen already.
        by_cases h : e.name = d.name
        · rw [h] at hseen
          rw [hseen, Bool.true_or, Bool.true_or]
        · rw [beq_eq_false_iff_ne.mpr h, Bool.false_or]

theorem ofFound_append_singleton (found : List Declaration) (d : Declaration) :
    ofFound (found ++ [d]) =
      if d.isValue && (firstValue? found d.name).isSome then ofFound found
      else insert d (ofFound found) := by
  rw [ofFound, merge_append_singleton, List.contains_nil, Bool.false_or, firstValue?,
    List.findIdx?_isSome]
  rfl

theorem firstValue?_append_singleton (found : List Declaration) (d : Declaration) (name : String) :
    firstValue? (found ++ [d]) name =
      (firstValue? found name).or
        (if d.isValue && d.name == name then some found.length else none) := by
  rw [firstValue?, List.findIdx?_append, List.findIdx?_cons]
  congr 1
  split
  · simp
  · simp

theorem lastDefinition?_append_singleton (found : List Declaration) (d : Declaration)
    (name : String) : lastDefinition? (found ++ [d]) name =
      if !d.isValue && d.name == name then some found.length else lastDefinition? found name := by
  rw [lastDefinition?, List.reverse_append, List.reverse_singleton, List.singleton_append,
    List.findIdx?_cons]
  split
  · simp
  · rw [Option.map_map, lastDefinition?]
    congr 1
    funext i
    simp
    omega

theorem lt_of_mem_firstValue? : ∀ i ∈ firstValue? found name, i < found.length := fun _ hi =>
  (List.findIdx?_eq_some_iff_getElem.mp hi).choose

theorem lt_of_mem_lastDefinition? : ∀ i ∈ lastDefinition? found name, i < found.length := by
  intro i hi
  obtain ⟨j, hj, rfl⟩ := Option.map_eq_some_iff.mp hi
  have := (List.findIdx?_eq_some_iff_getElem.mp hj).choose
  rw [List.length_reverse] at this
  omega

section Later

variable {o o' : Option Nat} {n : Nat}

theorem max_some_right_of_lt (h : ∀ i ∈ o, i < n) : max o (some n) = some n := by
  cases o with
  | none => rw [Option.max_none_left]
  | some i => rw [Option.max_some_some, Nat.max_eq_right (Nat.le_of_lt (h i rfl))]

theorem max_some_left_of_lt (h : ∀ i ∈ o, i < n) : max (some n) o = some n := by
  cases o with
  | none => rw [Option.max_none_right]
  | some i => rw [Option.max_some_some, Nat.max_eq_left (Nat.le_of_lt (h i rfl))]

theorem lt_of_mem_max (h : ∀ i ∈ o, i < n) (h' : ∀ i ∈ o', i < n) : ∀ i ∈ max o o', i < n := by
  intro i hi
  cases o with
  | none =>
    rw [Option.max_none_left] at hi
    exact h' i hi
  | some j =>
    cases o' with
    | none =>
      rw [Option.max_none_right] at hi
      exact h i hi
    | some k =>
      rw [Option.max_some_some] at hi
      obtain rfl := Option.some.inj hi
      exact Nat.max_lt.mpr ⟨h j rfl, h' k rfl⟩

end Later

/-- A declaration that counts among those found stands where it stood when one more is found. -/
theorem bind_getElem?_append (found : List Declaration) (d : Declaration) (name : String) :
    (max (firstValue? found name) (lastDefinition? found name)).bind ((found ++ [d])[·]?) =
      counting? found name := by
  refine Option.bind_congr fun i hi => ?_
  exact List.getElem?_append_left
    (lt_of_mem_max lt_of_mem_firstValue? lt_of_mem_lastDefinition? i hi)

/-- A declaration counts when it is found, unless it is a variable of a name that has been one. -/
theorem counting?_append_singleton (found : List Declaration) (d : Declaration) (name : String) :
    counting? (found ++ [d]) name =
      if d.name = name ∧ ¬ (d.isValue && (firstValue? found name).isSome) then some d
      else counting? found name := by
  have hlast : (found ++ [d])[found.length]? = some d := List.getElem?_concat_length
  rw [counting?, firstValue?_append_singleton, lastDefinition?_append_singleton]
  by_cases hname : d.name = name
  · cases hvalue : d.isValue with
    | false => simp [hname, max_some_right_of_lt lt_of_mem_firstValue?]
    | true =>
      cases hfirst : firstValue? found name with
      | none => simp [hname, max_some_left_of_lt lt_of_mem_lastDefinition?]
      | some i =>
        have hcounting := bind_getElem?_append found d name
        rw [hfirst] at hcounting
        simp [hcounting]
  · simp [hname, bind_getElem?_append]

/-! ## All declarations of a file -/

theorem distinct_ofFound (found : List Declaration) : (ofFound found).Distinct := by
  induction found using List.reverseRecOn with
  | nil => exact .nil
  | append_singleton found d ih =>
    rw [ofFound_append_singleton]
    split
    · exact ih
    · exact ih.insert d

theorem map_name_ofFound (found : List Declaration) :
    (ofFound found).map Declaration.name = (found.map Declaration.name).eraseDups := by
  induction found using List.reverseRecOn with
  | nil => rfl
  | append_singleton found d ih =>
    have hdeclares :
        (ofFound found).declares d.name = (found.map Declaration.name).contains d.name := by
      rw [Bool.eq_iff_iff, List.contains_iff_mem, ← List.mem_eraseDups, ← ih, declares,
        List.any_eq_true, List.mem_map]
      simp only [beq_iff_eq]
    have hnames : ((found ++ [d]).map Declaration.name).eraseDups =
        if (found.map Declaration.name).contains d.name then (found.map Declaration.name).eraseDups
        else (found.map Declaration.name).eraseDups ++ [d.name] := by
      rw [List.map_append, List.map_singleton, List.eraseDups_append, List.removeAll,
        List.filter_singleton, List.elem_eq_contains]
      cases (found.map Declaration.name).contains d.name with
      | true => exact List.append_nil _
      | false => rfl
    rw [ofFound_append_singleton, hnames]
    split
    · rename_i hdropped
      -- A variable that is dropped has the name of one that was found before.
      have hmem : (found.map Declaration.name).contains d.name = true := by
        rw [Bool.and_eq_true, firstValue?, List.findIdx?_isSome, List.any_eq_true] at hdropped
        obtain ⟨-, e, he, hname⟩ := hdropped
        rw [Bool.and_eq_true, beq_iff_eq] at hname
        exact List.contains_iff_mem.mpr (hname.2 ▸ List.mem_map_of_mem he)
      rw [if_pos hmem, ih]
    · rw [map_name_insert, hdeclares, ih]

theorem find?_ofFound (found : List Declaration) (name : String) :
    (ofFound found).find? (·.name == name) = counting? found name := by
  induction found using List.reverseRecOn with
  | nil => rfl
  | append_singleton found d ih =>
    rw [ofFound_append_singleton, counting?_append_singleton]
    by_cases hname : d.name = name
    · subst hname
      by_cases hdropped : (d.isValue && (firstValue? found d.name).isSome) = true
      · rw [if_pos hdropped, if_neg fun h => h.2 hdropped, ih]
      · rw [if_neg hdropped, if_pos ⟨rfl, hdropped⟩, find?_insert_self]
    · rw [if_neg (c := d.name = name ∧ _) fun h => hname h.1, ← ih]
      split
      · rfl
      · exact find?_insert_of_ne hname _

/-- The declarations made of those found in a file are the ones that count. -/
theorem isMergeOf_ofFound (found : List Declaration) : IsMergeOf found (ofFound found) where
  names_eq := map_name_ofFound found
  nodup := distinct_iff.mp (distinct_ofFound found)
  find?_eq := find?_ofFound found

theorem mem_ofFound (h : d ∈ ofFound found) : d ∈ found := by
  have hfind := (distinct_ofFound found).find?_name h
  rw [find?_ofFound, counting?] at hfind
  obtain ⟨i, -, hi⟩ := Option.bind_eq_some_iff.mp hfind
  exact List.mem_of_getElem? hi

end SymbolAtlas.Declarations
