import SymbolAtlas.Declaration

/-! # Declaring names in turn

A name keeps the place at which it was first declared and the declaration that was made last. So
declarations that are first gathered by themselves, and then made in the order in which they were
gathered, come out as if each had been made when it was found.
-/

namespace SymbolAtlas.Declarations

variable {d e : Declaration} {ds es : Declarations}

theorem insert_cons (d e : Declaration) (es : Declarations) :
    insert d (e :: es) = if e.name = d.name then d :: es else e :: insert d es := rfl

@[simp] theorem insertAll_nil (ds : Declarations) : insertAll ds [] = ds := rfl

@[simp] theorem insertAll_cons (ds : Declarations) (d : Declaration) (new : List Declaration) :
    insertAll ds (d :: new) = insertAll (insert d ds) new := rfl

theorem insertAll_append (ds : Declarations) (new more : List Declaration) :
    insertAll ds (new ++ more) = insertAll (insertAll ds new) more := List.foldl_append

/-! ## Two declarations in turn -/

/-- The later of two declarations of one name is all that is left of them. -/
theorem insert_insert_of_name_eq (h : e.name = d.name) (ds : Declarations) :
    insert d (insert e ds) = insert d ds := by
  induction ds with
  | nil => rw [insert, insert_cons, if_pos h, insert]
  | cons x xs ih =>
    rw [insert_cons e, insert_cons d]
    split
    · next hx => rw [insert_cons, if_pos h, if_pos (hx.trans h)]
    · next hx => rw [insert_cons, ih]; rw [← h, if_neg hx, if_neg hx]

theorem declares_insert (h : ds.declares d.name = true) (e : Declaration) :
    (insert e ds).declares d.name = true := by
  induction ds with
  | nil => cases h
  | cons x xs ih =>
    rw [insert_cons]
    rw [declares, List.any_cons, Bool.or_eq_true, beq_iff_eq, ← declares] at h
    split
    · next hx =>
      rw [declares, List.any_cons, Bool.or_eq_true, beq_iff_eq, ← hx, ← declares]
      exact h
    · next hx =>
      rw [declares, List.any_cons, Bool.or_eq_true, beq_iff_eq, ← declares]
      exact h.imp_right ih

theorem declares_insert_self (d : Declaration) (ds : Declarations) :
    (insert d ds).declares d.name = true := by
  induction ds with
  | nil => simp [insert, declares]
  | cons x xs ih =>
    rw [insert_cons]
    split
    · simp [declares]
    · rw [declares, List.any_cons, ← declares, ih, Bool.or_true]

/-- What has been declared stays declared. -/
theorem declares_insertAll_of_declares (h : ds.declares d.name = true) (new : List Declaration) :
    (insertAll ds new).declares d.name = true := by
  induction new generalizing ds with
  | nil => exact h
  | cons e new ih => exact ih (declares_insert h e)

theorem declares_insertAll {new : List Declaration} (h : d ∈ new) (ds : Declarations) :
    (insertAll ds new).declares d.name = true := by
  induction new generalizing ds with
  | nil => exact absurd h List.not_mem_nil
  | cons e new ih =>
    rw [insertAll_cons]
    rcases List.mem_cons.mp h with rfl | h
    · exact declares_insertAll_of_declares (declares_insert_self d ds) new
    · exact ih h (insert e ds)

/-- A name that is declared already keeps its place, whatever is declared before or after. -/
theorem insert_comm (hne : e.name ≠ d.name) (h : ds.declares d.name = true) :
    insert d (insert e ds) = insert e (insert d ds) := by
  induction ds with
  | nil => cases h
  | cons x xs ih =>
    rw [declares, List.any_cons, Bool.or_eq_true, beq_iff_eq, ← declares] at h
    rw [insert_cons e x, insert_cons d x]
    by_cases hxd : x.name = d.name
    · rw [if_neg (fun hxe => hne (hxe.symm.trans hxd)), if_pos hxd, insert_cons, if_pos hxd,
        insert_cons, if_neg hne.symm]
    · have hxs := ih (h.resolve_left hxd)
      by_cases hxe : x.name = e.name
      · rw [if_pos hxe, if_neg hxd, insert_cons, if_neg hne, insert_cons, if_pos hxe]
      · rw [if_neg hxe, if_neg hxd, insert_cons, if_neg hxd, insert_cons, if_neg hxe, hxs]

/-! ## Distinct names -/

theorem insert_of_forall_ne (h : ∀ e ∈ ds, e.name ≠ d.name) : insert d ds = ds ++ [d] := by
  induction ds with
  | nil => rfl
  | cons x xs ih =>
    rw [insert_cons, if_neg (h x List.mem_cons_self),
      ih fun e he => h e (List.mem_cons_of_mem x he), List.cons_append]

/-- Names that are all different are declared in the order in which they are found. -/
theorem insertAll_of_nodup {new : List Declaration}
    (h : ((ds ++ new).map Declaration.name).Nodup) : insertAll ds new = ds ++ new := by
  induction new generalizing ds with
  | nil => rw [insertAll_nil, List.append_nil]
  | cons d new ih =>
    have hd : ∀ e ∈ ds, e.name ≠ d.name := by
      rw [List.map_append, List.nodup_append] at h
      exact fun e he => h.2.2 e.name (List.mem_map_of_mem he) d.name
        (List.mem_map_of_mem List.mem_cons_self)
    rw [insertAll_cons, insert_of_forall_ne hd, ih]
    · rw [List.append_assoc, List.singleton_append]
    · rw [List.append_assoc, List.singleton_append]
      exact h

/-! ## Gathered declarations -/

theorem insertAll_insert_comm {new : List Declaration} (h : ds.declares d.name = true)
    (hnew : ∀ e ∈ new, e.name ≠ d.name) :
    insertAll (insert d ds) new = insert d (insertAll ds new) := by
  induction new generalizing ds with
  | nil => rfl
  | cons e new ih =>
    rw [insertAll_cons, insertAll_cons, ← insert_comm (hnew e List.mem_cons_self) h,
      ih (declares_insert h e) fun f hf => hnew f (List.mem_cons_of_mem e hf)]

/-- Each name is declared once. -/
def Distinct (ds : Declarations) : Prop := ds.Pairwise fun d e => e.name ≠ d.name

theorem mem_insert (h : e ∈ insert d ds) : e = d ∨ e ∈ ds := by
  induction ds with
  | nil => exact .inl (List.mem_singleton.mp h)
  | cons x xs ih =>
    rw [insert_cons] at h
    split at h
    · exact (List.mem_cons.mp h).imp_right (List.mem_cons_of_mem x)
    · rcases List.mem_cons.mp h with rfl | h
      · exact .inr List.mem_cons_self
      · exact (ih h).imp_right (List.mem_cons_of_mem x)

theorem Distinct.insert (h : ds.Distinct) (d : Declaration) : (insert d ds).Distinct := by
  induction ds with
  | nil => exact List.pairwise_singleton _ _
  | cons x xs ih =>
    obtain ⟨hx, hxs⟩ := List.pairwise_cons.mp h
    rw [insert_cons]
    split
    · next heq => exact List.pairwise_cons.mpr ⟨fun e he => heq ▸ hx e he, hxs⟩
    · next hne =>
      refine List.pairwise_cons.mpr ⟨fun e he => ?_, ih hxs⟩
      rcases mem_insert he with rfl | he
      · exact fun heq => hne heq.symm
      · exact hx e he

theorem insertAll_insert (h : es.Distinct) (ds : Declarations) (d : Declaration) :
    insertAll ds (insert d es) = insert d (insertAll ds es) := by
  induction es generalizing ds with
  | nil => rfl
  | cons e es ih =>
    obtain ⟨he, hes⟩ := List.pairwise_cons.mp h
    rw [insert_cons]
    split
    · next heq =>
      have hdeclares : (insert e ds).declares d.name = true := heq ▸ declares_insert_self e ds
      rw [insertAll_cons, insertAll_cons,
        ← insertAll_insert_comm hdeclares fun f hf => heq ▸ he f hf,
        insert_insert_of_name_eq heq]
    · rw [insertAll_cons, insertAll_cons, ih hes]

/-- Declarations may be gathered before they are made. -/
theorem insertAll_insertAll (h : es.Distinct) (ds : Declarations) (new : List Declaration) :
    insertAll ds (insertAll es new) = insertAll (insertAll ds es) new := by
  induction new generalizing es with
  | nil => rfl
  | cons d new ih => rw [insertAll_cons, insertAll_cons, ih (h.insert d), insertAll_insert h]

theorem mem_insertAll {new : List Declaration} (h : e ∈ insertAll ds new) : e ∈ ds ∨ e ∈ new := by
  induction new generalizing ds with
  | nil => exact .inl h
  | cons d new ih =>
    rcases ih h with h | h
    · rcases mem_insert h with rfl | h
      · exact .inr List.mem_cons_self
      · exact .inl h
    · exact .inr (List.mem_cons_of_mem d h)

theorem Distinct.insertAll (h : ds.Distinct) (new : List Declaration) :
    (insertAll ds new).Distinct := by
  induction new generalizing ds with
  | nil => exact h
  | cons d new ih => exact ih (h.insert d)

/-- The names declared are those of the declarations made. -/
theorem declares_insertAll_nil_iff {name : String} {new : List Declaration} :
    (Declarations.insertAll [] new).declares name = true ↔ name ∈ new.map Declaration.name := by
  rw [List.mem_map]
  constructor
  · intro h
    obtain ⟨d, hd, hname⟩ := List.any_eq_true.mp h
    exact ⟨d, (mem_insertAll hd).resolve_left List.not_mem_nil, beq_iff_eq.mp hname⟩
  · rintro ⟨d, hd, rfl⟩
    exact declares_insertAll hd []

/-- Where each name is declared once, a name leads to its declaration. -/
theorem Distinct.find?_name (h : ds.Distinct) (hd : d ∈ ds) :
    ds.find? (·.name == d.name) = some d := by
  induction ds with
  | nil => exact absurd hd List.not_mem_nil
  | cons e es ih =>
    obtain ⟨he, hes⟩ := List.pairwise_cons.mp h
    rcases List.mem_cons.mp hd with rfl | hd
    · simp
    · have hne : e.name ≠ d.name := (he d hd).symm
      simp [hne, ih hes hd]

end SymbolAtlas.Declarations
