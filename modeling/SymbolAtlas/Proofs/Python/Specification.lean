import Mathlib
import SymbolAtlas.Python.Parse

/-! # Specifications of parsers

Specifications of parsers are Hoare triples. A parser may always fail; they tell what holds if it
does not.
-/

namespace SymbolAtlas.Python

open Std.Do

/-- What comes next is read off the characters of the source. -/
theorem chars_eq {s : State} (h : s.chars ≠ []) :
    s.chars = s.start.rest ∧ s.ahead = .characters := by
  unfold State.chars at h ⊢
  cases hahead : s.ahead with
  | characters => exact ⟨rfl, rfl⟩
  | layout _ | string _ _ | finish =>
    rw [hahead] at h
    exact absurd rfl h

/-- What a specification says about a run that succeeds. -/
theorem triple_iff {α : Type} {P : State → Prop} {p : Parse α} {Q : α → State → Prop} :
    ⦃fun s => ⌜P s⌝⦄ p ⦃⇓? a s' => ⌜Q a s'⌝⦄ ↔
      ∀ s a s', P s → p s = .ok (a, s') → Q a s' := by
  constructor
  · intro h s a s' hs hp
    have := h s hs
    simp only [WP.wp, PredTrans.apply_pushArg, StateT.run, hp] at this
    exact this
  · intro h s hs
    simp only [WP.wp, PredTrans.apply_pushArg]
    cases hp : p s with
    | error e =>
      simp only [StateT.run, hp]
      trivial
    | ok r =>
      simp only [StateT.run, hp]
      exact h s r.1 r.2 hs hp

namespace Parse

@[spec]
theorem fail_spec {α : Type} :
    ⦃fun _ => ⌜True⌝⦄ (fail : Parse α) ⦃⇓? _ _ => ⌜False⌝⦄ :=
  triple_iff.mpr fun _ _ _ _ h => (nomatch h)

/-- What each step of a loop keeps, the loop keeps. -/
theorem loop_spec {α : Type} {I : α → State → α → State → Prop} {a : α}
    {step : α → Parse (Option α)} (s₀ : State)
    (hstep : ∀ b, ⦃fun s => ⌜I a s₀ b s⌝⦄ step b
      ⦃⇓? r s' => ⌜match r with | none => I a s₀ b s' | some c => I a s₀ c s'⌝⦄) :
    ⦃fun s => ⌜s = s₀ ∧ I a s₀ a s⌝⦄ loop a step ⦃⇓? b s' => ⌜I a s₀ b s'⌝⦄ := by
  have hiterate (n : Nat) (b : α) :
      ∀ s c s', I a s₀ b s → iterate step n b s = .ok (c, s') → I a s₀ c s' := by
    induction n generalizing b with
    | zero => exact fun _ _ _ _ h => (nomatch h)
    | succ n ih =>
      intro s c s' hs hrun
      simp only [iterate] at hrun
      split at hrun
      · cases hrun
      · rename_i hstop
        cases hrun
        exact triple_iff.mp (hstep b) s none s' hs hstop
      · rename_i next s'' hgo
        exact ih next s'' c s' (triple_iff.mp (hstep b) s (some next) s'' hs hgo) hrun
  exact triple_iff.mpr fun s b s' hs => hiterate s.fuel a s b s' hs.2

theorem afterFailure_spec {α : Type} {P : State → Prop} {e : State} {p : Parse α}
    {Q : α → State → Prop} (hp : ⦃fun s => ⌜P s⌝⦄ p ⦃⇓? a s' => ⌜Q a s'⌝⦄) :
    ⦃fun s => ⌜P s⌝⦄ afterFailure e p ⦃⇓? a s' => ⌜Q a s'⌝⦄ := by
  refine triple_iff.mpr fun s a s' hs hrun => ?_
  unfold afterFailure at hrun
  split at hrun
  · cases hrun
    exact triple_iff.mp hp s a s' hs ‹_›
  · cases hrun

theorem either_spec {α : Type} {P : State → Prop} {p q : Parse α} {Q : α → State → Prop}
    (hp : ⦃fun s => ⌜P s⌝⦄ p ⦃⇓? a s' => ⌜Q a s'⌝⦄)
    (hq : ⦃fun s => ⌜P s⌝⦄ q ⦃⇓? a s' => ⌜Q a s'⌝⦄) :
    ⦃fun s => ⌜P s⌝⦄ either p q ⦃⇓? a s' => ⌜Q a s'⌝⦄ := by
  refine triple_iff.mpr fun s a s' hs hrun => ?_
  unfold either at hrun
  split at hrun
  · cases hrun
    exact triple_iff.mp hp s a s' hs ‹_›
  · exact triple_iff.mp (afterFailure_spec hq) s a s' hs hrun

end Parse

end SymbolAtlas.Python
