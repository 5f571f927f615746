import SymbolAtlas.Proofs.Text.ReadingOrder
import SymbolAtlas.Proofs.Token.Category
import SymbolAtlas.Proofs.Token.Rescan
import SymbolAtlas.Proofs.Token.Span
import Mathlib.Data.List.Basic
import Mathlib.Data.List.Pairwise

/-! # What stands at a place

Tokens do not overlap unless one stands inside the other. So a place of a source determines the
token that begins there, at whatever depth, and with it the token list that holds it and its
neighbours there.
-/

namespace SymbolAtlas

namespace Token

/-! ## Tokens at one place -/

section Layer

variable {source : String} {lo hi : Nat} {ts l l' : List Token} {t t' : Token}

theorem Laid.start_lt_stop (h : Laid source.toList lo ts hi) (ht : t ∈ ts) :
    t.start source < t.stop source := by
  obtain ⟨a, b, _, _, covers⟩ := h.exists_covers ht
  exact covers.isSlice.start_lt_stop

theorem Laid.layer_start_lt_stop (h : Laid source.toList lo ts hi) (hl : Layer ts l)
    (ht : t ∈ l) : t.start source < t.stop source := by
  obtain ⟨_, _, hlaid⟩ := h.layer hl
  exact hlaid.start_lt_stop ht

/-- Later tokens of one list have later places. -/
theorem Laid.pairwise_before (h : Laid source.toList lo ts hi) :
    ts.Pairwise fun t u => t.position.before u.position = true := by
  have later {t : Token} {a b hi : Nat} {us : List Token} (covers : t.Covers source.toList a b)
      (next : Laid source.toList b us hi) (u : Token) (hu : u ∈ us) :
      t.position.before u.position = true := by
    obtain ⟨a', b', ha, _, hu⟩ := next.exists_covers hu
    rw [covers.position_eq, hu.position_eq]
    exact Position.before_after_take (Nat.lt_of_lt_of_le covers.lt ha)
      (Nat.le_trans (Nat.le_of_lt hu.lt) hu.le) _
  induction h with
  | nil => exact .nil
  | plain _ covers next ih => exact .cons (later covers next) ih
  | template _ covers _ _ next _ ih => exact .cons (later covers next) ih

/-- Tokens of one list that share a part of the source are the same token. -/
theorem Laid.eq_of_overlap (h : Laid source.toList lo ts hi) (ht : t ∈ ts) (ht' : t' ∈ ts)
    (hlt : t.start source < t'.stop source) (hgt : t'.start source < t.stop source) : t = t' := by
  by_contra hne
  have hapart : ts.Pairwise fun t u =>
      t.stop source ≤ u.start source ∨ u.stop source ≤ t.start source :=
    h.pairwise.imp .inl
  have : Std.Symm fun t u : Token =>
      t.stop source ≤ u.start source ∨ u.stop source ≤ t.start source := ⟨fun _ _ => Or.symm⟩
  rcases hapart.forall ht ht' hne with h | h <;> omega

theorem Layer.trans {m : List Token} (h : Layer ts l) (h' : Layer l m) : Layer ts m := by
  induction h' with
  | outer => exact h
  | inner _ hmem ih => exact .inner ih hmem

/-- A token at any depth inside a template literal begins after it and does not end after it. -/
theorem Laid.enclosed (h : Laid source.toList lo ts hi) {p : Position} {s : String}
    {inside : List Token} (hmem : Token.template p s inside ∈ ts) (hl : Layer inside l)
    (ht : t ∈ l) :
    (Token.template p s inside).start source < t.start source ∧
      t.stop source ≤ (Token.template p s inside).stop source := by
  induction hl generalizing t with
  | outer =>
    obtain ⟨hstart, hstop⟩ := h.isEnclosed hmem ht
    exact ⟨hstart, by omega⟩
  | inner hl hmem' ih =>
    obtain ⟨_, _, hlaid⟩ := h.layer (.trans (.inner .outer hmem) hl)
    obtain ⟨hstart, hstop⟩ := hlaid.isEnclosed hmem' ht
    obtain ⟨houter, houter'⟩ := ih hmem'
    exact ⟨by omega, by omega⟩

/-- A list inside another is the same, or is inside one of its template literals. -/
theorem Layer.cases_outer (h : Layer ts l) :
    l = ts ∨ ∃ p s inside, .template p s inside ∈ ts ∧ Layer inside l := by
  induction h with
  | outer => exact .inl rfl
  | @inner _ inside p s _ hmem ih =>
    rcases ih with rfl | ⟨p', s', inside', hmem', h⟩
    · exact .inr ⟨p, s, inside, hmem, .outer⟩
    · exact .inr ⟨p', s', inside', hmem', .inner h hmem⟩

/-- No token at any depth inside a template literal begins where one of the literal's list does. -/
theorem Laid.start_ne (h : Laid source.toList lo ts hi) {p : Position} {s : String}
    {inside : List Token} (hmem : Token.template p s inside ∈ ts) (hl : Layer inside l)
    (ht : t ∈ l) (ht' : t' ∈ ts) : t'.start source ≠ t.start source := by
  intro hstart
  obtain ⟨hbegin, hend⟩ := h.enclosed hmem hl ht
  have hlt := h.start_lt_stop ht'
  have hlt' := h.layer_start_lt_stop (.trans (.inner .outer hmem) hl) ht
  have heq := h.eq_of_overlap ht' hmem (by omega) (by omega)
  rw [heq] at hstart
  omega

end Layer

/-- Two tokens that begin at one place are in the same list, whatever its depth. -/
theorem Laid.layer_eq {source : String} {lo hi : Nat} {ts l l' : List Token} {t t' : Token}
    (h : Laid source.toList lo ts hi) (hl : Layer ts l) (hl' : Layer ts l') (ht : t ∈ l)
    (ht' : t' ∈ l') (hstart : t.start source = t'.start source) : l = l' := by
  rcases hl.cases_outer with heq | ⟨p, s, inside, hmem, hinner⟩
  · rcases hl'.cases_outer with heq' | ⟨p', s', inside', hmem', hinner'⟩
    · rw [heq, heq']
    · exact absurd hstart (h.start_ne hmem' hinner' ht' (heq ▸ ht))
  · rcases hl'.cases_outer with heq' | ⟨p', s', inside', hmem', hinner'⟩
    · exact absurd hstart.symm (h.start_ne hmem hinner ht (heq' ▸ ht'))
    · -- The two literals share the place at which the tokens begin.
      have hbounds := h.enclosed hmem hinner ht
      have hbounds' := h.enclosed hmem' hinner' ht'
      have hlt := h.layer_start_lt_stop hl ht
      have hlt' := h.layer_start_lt_stop hl' ht'
      have heq := h.eq_of_overlap hmem hmem' (by omega) (by omega)
      obtain ⟨-, -, rfl⟩ := Token.template.inj heq
      obtain ⟨_, _, hinside⟩ := h.layer (.inner .outer hmem)
      exact hinside.layer_eq hinner hinner' ht ht' hstart
termination_by sizeOf ts
decreasing_by
  have := List.sizeOf_lt_of_mem hmem
  simp only [Token.template.sizeOf_spec] at this
  omega

/-- The place of a token determines it, and the tokens before and after it in its list. -/
theorem Layer.eq_of_position_eq {source : String} {before after before' after' : List Token}
    {t t' : Token} (h : Layer (tokenize source) (before ++ t :: after))
    (h' : Layer (tokenize source) (before' ++ t' :: after'))
    (hposition : t.position = t'.position) : before = before' ∧ t = t' ∧ after = after' := by
  obtain ⟨_, _, hsource⟩ := tokenize_laid source
  have hstart : t.start source = t'.start source := by rw [start, hposition, ← start]
  have hmem : t ∈ before ++ t :: after := List.mem_append_right _ List.mem_cons_self
  have hmem' : t' ∈ before' ++ t' :: after' := List.mem_append_right _ List.mem_cons_self
  have hlist := hsource.layer_eq h h' hmem hmem' hstart
  have hlt := hsource.layer_start_lt_stop h hmem
  have hlt' := hsource.layer_start_lt_stop h' hmem'
  obtain ⟨_, _, hlaid⟩ := hsource.layer h'
  obtain ⟨-, hafter, hbefore⟩ := List.pairwise_append.mp hlaid.pairwise
  have hnot : t ∉ before' := fun hin => by
    have := hbefore t hin t' List.mem_cons_self
    omega
  have hnot' : t ∉ after' := fun hin => by
    have := (List.pairwise_cons.mp hafter).1 t hin
    omega
  obtain ⟨rfl, rfl, rfl⟩ := (List.append_cons_inj_of_notMem hnot hnot').mp hlist.symm
  exact ⟨rfl, rfl, rfl⟩

end Token

end SymbolAtlas
