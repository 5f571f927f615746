import SymbolAtlas.Proofs.Script.ClosedStatement

/-! # Balanced tokens

Tokens are balanced if they close the brackets that they open and no others. Every reader that
counts brackets passes over balanced tokens and goes on with what stands after them: the readers of
defaults and keys, the reader of initialisers up to a line break that ends it, and the reader of
declarations, which finds nothing inside a bracket.
-/

namespace SymbolAtlas.Script

open Token

/-- Whether the tokens close `depth` open brackets and those that they open, no others, and have
none of the marks `stops` outside every bracket. -/
def isBalanced (stops : List String) (depth : Nat) : List Token → Bool
  | [] => depth == 0
  | t :: ts =>
    !(depth == 0 && (t.isCloser || t.hasKind .punctuation && stops.contains t.text)) &&
      isBalanced stops (bracketDepth depth t) ts

section Balanced

variable {stops : List String} {depth k : Nat} {t c : Token} {ts us rest : List Token}

theorem isBalanced_cons :
    isBalanced stops depth (t :: ts) = true ↔
      (depth = 0 → t.isCloser = false ∧ ∀ s ∈ stops, t.isMark s = false) ∧
        isBalanced stops (bracketDepth depth t) ts = true := by
  have hstops : (t.hasKind .punctuation && stops.contains t.text) = false ↔
      ∀ s ∈ stops, t.isMark s = false := by
    rw [← Bool.not_eq_true, Bool.and_eq_true, List.contains_iff_mem]
    constructor
    · intro h s hs
      rw [Bool.eq_false_iff]
      intro hmark
      obtain ⟨p, rfl⟩ := eq_of_isMark hmark
      exact h ⟨rfl, hs⟩
    · rintro h ⟨hkind, hmem⟩
      have hmark := h t.text hmem
      rw [isMark, is, hkind, beq_self_eq_true] at hmark
      cases hmark
  rw [isBalanced, Bool.and_eq_true, Bool.not_eq_true', ← hstops]
  by_cases hdepth : depth = 0
  · simp [hdepth]
  · simp [hdepth]

/-- A token that closes no bracket from outside keeps the brackets that are open around it. -/
theorem bracketDepth_add (h : depth = 0 → t.isCloser = false) :
    bracketDepth (depth + k) t = bracketDepth depth t + k := by
  unfold bracketDepth
  split
  · omega
  split
  · next hclose =>
    have hdepth : depth ≠ 0 := by
      intro hzero
      rw [h hzero] at hclose
      cases hclose
    omega
  · rfl

theorem bracketDepth_opener (h : t.isOpener = true) : bracketDepth depth t = depth + 1 := if_pos h

theorem bracketDepth_closer (h : t.isCloser = true) : bracketDepth depth t = depth - 1 := by
  rw [bracketDepth, if_neg (Bool.eq_false_iff.mp (isOpener_of_isCloser h)), if_pos h]

theorem isBalanced_weaken (h : isBalanced stops depth ts = true) :
    isBalanced [] depth ts = true := by
  induction ts generalizing depth with
  | nil => exact h
  | cons t ts ih =>
    rw [isBalanced_cons] at h ⊢
    exact ⟨fun hdepth => ⟨(h.1 hdepth).1, by simp⟩, ih h.2⟩

theorem isBalanced_append (h : isBalanced stops depth ts = true)
    (hus : isBalanced stops 0 us = true) : isBalanced stops depth (ts ++ us) = true := by
  induction ts generalizing depth with
  | nil =>
    rw [isBalanced, beq_iff_eq] at h
    rw [h]
    exact hus
  | cons t ts ih =>
    rw [isBalanced_cons] at h
    rw [List.cons_append, isBalanced_cons]
    exact ⟨h.1, ih h.2⟩

/-- Inside a bracket, balanced tokens change nothing. -/
theorem isBalanced_inside (h : isBalanced [] depth ts = true) :
    isBalanced stops (depth + (k + 1)) (ts ++ us) = isBalanced stops (k + 1) us := by
  induction ts generalizing depth with
  | nil =>
    rw [isBalanced, beq_iff_eq] at h
    rw [h, Nat.zero_add, List.nil_append]
  | cons t ts ih =>
    rw [isBalanced_cons] at h
    have hdepth : depth + (k + 1) ≠ 0 := by omega
    rw [List.cons_append, isBalanced, bracketDepth_add fun hzero => (h.1 hzero).1, ih h.2]
    simp

/-- Balanced tokens between brackets are balanced, whatever marks they have. -/
theorem isBalanced_bracketed (ht : t.isOpener = true) (hc : c.isCloser = true)
    (hstops : ∀ s ∈ stops, t.isMark s = false) (h : isBalanced [] 0 ts = true) :
    isBalanced stops 0 (t :: (ts ++ [c])) = true := by
  have hclose : t.isCloser = false := by
    rw [Bool.eq_false_iff]
    intro hclose
    rw [isOpener_of_isCloser hclose] at ht
    cases ht
  have hinside : isBalanced stops (0 + 1) (ts ++ [c]) = isBalanced stops (0 + 1) [c] :=
    isBalanced_inside h
  rw [isBalanced_cons, bracketDepth_opener ht, hinside, isBalanced_cons, bracketDepth_closer hc]
  exact ⟨fun _ => ⟨hclose, hstops⟩, fun h => absurd h Nat.one_ne_zero, rfl⟩

/-! ## Readers -/

/-- The search for a stop passes a token that is none and closes no bracket from outside. -/
theorem fromStop_token {marks : List String}
    (hstop : ¬ (depth = 0 && t.hasKind .punctuation && marks.contains t.text) = true)
    (hclose : depth = 0 → t.isCloser = false) :
    fromStop marks depth (t :: ts) = fromStop marks (bracketDepth depth t) ts := by
  rw [fromStop_cons, if_neg hstop]
  unfold bracketDepth
  split
  · rfl
  split
  · next hcloser =>
    cases depth with
    | zero => exact absurd hcloser (Bool.eq_false_iff.mp (hclose rfl))
    | succ depth => rfl
  · rfl

/-- A stop outside the brackets is sought behind balanced tokens that have none. -/
theorem fromStop_append {closer : String} (hcloser : closer = "\x7d" ∨ closer = "]")
    (h : isBalanced [","] depth ts = true) :
    fromStop [",", closer] depth (ts ++ rest) = fromStop [",", closer] 0 rest := by
  induction ts generalizing depth with
  | nil =>
    rw [isBalanced, beq_iff_eq] at h
    rw [h, List.nil_append]
  | cons t ts ih =>
    rw [isBalanced_cons] at h
    obtain ⟨hhere, hnext⟩ := h
    have hstop :
        ¬ (depth = 0 && t.hasKind .punctuation && [",", closer].contains t.text) = true := by
      simp only [Bool.and_eq_true, decide_eq_true_eq, List.contains_iff_mem, List.mem_cons,
        List.not_mem_nil, or_false, not_and, not_or, and_imp]
      intro hdepth hkind
      obtain ⟨hclose, hcomma⟩ := hhere hdepth
      have hcomma := hcomma "," List.mem_cons_self
      simp only [isMark, is, isCloser, hkind, Bool.true_and] at hclose hcomma
      constructor
      · simpa using hcomma
      · rintro htext
        rw [htext] at hclose
        rcases hcloser with rfl | rfl <;> cases hclose
    rw [List.cons_append, fromStop_token hstop fun hdepth => (hhere hdepth).1, ih hnext]

/-- The search for a closing bracket passes a token that closes none from outside. -/
theorem untilClosed_token (hclose : depth = 0 → t.isCloser = false) :
    untilClosed depth (t :: ts) =
      (untilClosed (bracketDepth depth t) ts).map fun (inner, rest) => (t :: inner, rest) := by
  rw [untilClosed_cons]
  unfold bracketDepth
  split
  · rfl
  split
  · next hcloser =>
    cases depth with
    | zero => exact absurd hcloser (Bool.eq_false_iff.mp (hclose rfl))
    | succ depth => rfl
  · rfl

/-- The bracket that closes an open one is the first after balanced tokens. -/
theorem untilClosed_append_closer (h : isBalanced [] depth ts = true) (hc : c.isCloser = true) :
    untilClosed depth (ts ++ c :: rest) = some (ts, rest) := by
  induction ts generalizing depth with
  | nil =>
    rw [isBalanced, beq_iff_eq] at h
    rw [h, List.nil_append, untilClosed_cons,
      if_neg (Bool.eq_false_iff.mp (isOpener_of_isCloser hc)), if_pos hc]
  | cons t ts ih =>
    rw [isBalanced_cons] at h
    rw [List.cons_append, untilClosed_token fun hdepth => (h.1 hdepth).1, ih h.2]
    rfl

theorem afterClosed_append (h : isBalanced [] 0 ts = true) (hc : c.isCloser = true) :
    afterClosed (ts ++ c :: rest) = rest := by
  rw [afterClosed, untilClosed_append_closer h hc]

/-- Nothing inside a bracket is declared. -/
theorem topLevelFrom_inside (h : isBalanced [] depth ts = true) (before : List Token) :
    topLevelFrom before (depth + 1) (ts ++ rest) = topLevelFrom (ts.reverse ++ before) 1 rest := by
  induction ts generalizing depth before with
  | nil =>
    rw [isBalanced, beq_iff_eq] at h
    rw [h]
    rfl
  | cons t ts ih =>
    rw [isBalanced_cons] at h
    have hdepth : bracketDepth (depth + 1) t = bracketDepth depth t + 1 :=
      bracketDepth_add fun hzero => (h.1 hzero).1
    rw [List.cons_append, topLevelFrom_cons, hdepth, ih h.2, List.reverse_cons, List.append_assoc]
    rfl

/-- What stands in brackets declares nothing. -/
theorem topLevelFrom_bracketed (ht : t.isOpener = true) (hc : c.isCloser = true)
    (h : isBalanced [] 0 ts = true) (before rest : List Token) :
    topLevelFrom before 0 (t :: (ts ++ c :: rest)) =
      topLevelFrom (c :: (ts.reverse ++ t :: before)) 0 rest := by
  have hinside : topLevelFrom (t :: before) (0 + 1) (ts ++ c :: rest) = _ :=
    topLevelFrom_inside h (t :: before)
  have hwordOpener : t.isWord = false :=
    isWord_of_hasKind (Bool.and_eq_true_iff.mp ht).1 (by decide) (by decide)
  have hwordCloser : c.isWord = false :=
    isWord_of_hasKind (Bool.and_eq_true_iff.mp hc).1 (by decide) (by decide)
  rw [topLevelFrom_cons, hwordOpener, bracketDepth_opener ht, hinside, topLevelFrom_cons,
    hwordCloser, bracketDepth_closer hc]
  simp

end Balanced

/-! ## Initialisers -/

/-- The pairs of neighbours, the first of them outside every bracket, of which the second begins
on a later line. -/
def outerBreaks (depth : Nat) : List Token → List (Token × Token)
  | p :: t :: ts =>
    let depth := bracketDepth depth p
    (if depth = 0 ∧ p.line < t.line then [(p, t)] else []) ++ outerBreaks depth (t :: ts)
  | _ => []

/-- Whether a line break of the tokens, outside every bracket, ends the statement. -/
def endsEarly (ts : List Token) : Bool := (outerBreaks 0 ts).any fun b => breaksBetween b.1 b.2

section Initializer

variable {depth : Nat} {p t stop : Token} {ts rest : List Token}

theorem typeArgumentDepth_zero (ht : t.isOperator "<" = false) (before : Option Token) :
    typeArgumentDepth before 0 t = 0 := by
  have hopens : opensTypeArguments before t = false := by
    rw [opensTypeArguments, ht, Bool.false_and]
  rw [typeArgumentDepth, hopens, if_neg Bool.false_ne_true]
  split
  · rw [angleDepth]
    omega
  · rfl

/-- A token of an initialiser is passed unless it stands after a line break that ends the
statement. -/
theorem afterInitializer_token {before : Option Token}
    (h : depth = 0 → t.isCloser = false ∧ ∀ s ∈ [",", ";"], t.isMark s = false)
    (hless : t.isOperator "<" = false) :
    afterInitializer before depth 0 (t :: rest) =
      if depth = 0 ∧ before.any (fun p => p.line < t.line && breaksBetween p t) = true then
        t :: rest
      else afterInitializer (some t) (bracketDepth depth t) 0 rest := by
  have hcloser : (depth = 0 && t.isCloser : Bool) = false := by
    by_cases hdepth : depth = 0
    · rw [(h hdepth).1, Bool.and_false]
    · simp [hdepth]
  have hmark :
      (bracketDepth depth t = 0 && (0 : Nat) = 0 && (t.isMark "," || t.isMark ";") : Bool) =
        false := by
    rw [Bool.eq_false_iff]
    intro hstop
    simp only [Bool.and_eq_true, decide_eq_true_eq, Bool.or_eq_true] at hstop
    obtain ⟨⟨hdepth, _⟩, hmark⟩ := hstop
    -- Neither mark is a bracket, so no bracket was open before it either.
    rcases hmark with hmark | hmark
    all_goals
      obtain ⟨q, rfl⟩ := eq_of_isMark hmark
      have hnone := (h hdepth).2
      simp at hnone
  rw [afterInitializer_cons, hcloser, hmark, typeArgumentDepth_zero hless]
  simp only [Bool.and_eq_true, decide_eq_true_eq, Bool.false_eq_true, if_false, and_true]

/-- What stands after the first token of an initialiser is left before a token other than a comma if
a line break ends the statement early, and otherwise at the comma or semicolon after it. -/
theorem afterInitializer_append (h : isBalanced [",", ";"] (bracketDepth depth p) ts = true)
    (hless : ∀ t ∈ ts, t.isOperator "<" = false)
    (hstop : stop.isMark "," = true ∨ stop.isMark ";" = true) :
    let left := afterInitializer (some p) (bracketDepth depth p) 0 (ts ++ stop :: rest)
    if (outerBreaks depth (p :: ts)).any fun b => breaksBetween b.1 b.2 then
      left.head?.any (·.isMark ",") = false
    else left = stop :: rest := by
  intro left
  induction ts generalizing depth p with
  | nil =>
    rw [isBalanced, beq_iff_eq] at h
    have hmark : (stop.isMark "," || stop.isMark ";") = true := Bool.or_eq_true_iff.mpr hstop
    have hneither : stop.isOpener = false ∧ stop.isCloser = false := by
      rcases hstop with hstop | hstop <;> obtain ⟨q, rfl⟩ := eq_of_isMark hstop <;>
        exact ⟨rfl, rfl⟩
    simp only [outerBreaks, List.any_nil, Bool.false_eq_true, if_false, left, List.nil_append]
    rw [afterInitializer_cons, h]
    simp [hneither, bracketDepth, hmark]
  | cons t ts ih =>
    rw [isBalanced_cons] at h
    obtain ⟨hhere, hnext⟩ := h
    have hread := ih hnext fun u hu => hless u (List.mem_cons_of_mem t hu)
    have hstep : left = _ := afterInitializer_token hhere (hless t List.mem_cons_self)
    simp only [Option.any_some, Bool.and_eq_true, decide_eq_true_eq] at hstep
    rw [outerBreaks, List.any_append]
    by_cases hends : bracketDepth depth p = 0 ∧ p.line < t.line ∧ breaksBetween p t = true
    · have hcomma := (hhere hends.1).2 "," List.mem_cons_self
      rw [if_pos hends] at hstep
      simp [hends.1, hends.2.1, hends.2.2, hstep, hcomma]
    · have hnone : (if bracketDepth depth p = 0 ∧ p.line < t.line then [(p, t)] else []).any
          (fun b => breaksBetween b.1 b.2) = false := by
        split
        · next hbreak =>
          rw [List.any_cons, List.any_nil, Bool.or_false, Bool.eq_false_iff]
          exact fun h => hends ⟨hbreak.1, hbreak.2, h⟩
        · rfl
      rw [if_neg hends] at hstep
      rw [hnone, Bool.false_or, hstep]
      exact hread

/-- An initialiser that a line break ends early is left before a token other than a comma, any other
is read up to the comma or semicolon after it. -/
theorem afterInitializer_cases (h : isBalanced [",", ";"] 0 ts = true)
    (hless : ∀ t ∈ ts, t.isOperator "<" = false)
    (hstop : stop.isMark "," = true ∨ stop.isMark ";" = true) :
    let left := afterInitializer none 0 0 (ts ++ stop :: rest)
    if endsEarly ts then left.head?.any (·.isMark ",") = false else left = stop :: rest := by
  cases ts with
  | nil =>
    rcases hstop with hstop | hstop <;> obtain ⟨q, rfl⟩ := eq_of_isMark hstop <;>
      simp [afterInitializer, endsEarly, outerBreaks]
  | cons p ts =>
    rw [isBalanced_cons] at h
    rw [List.cons_append, afterInitializer_token h.1 (hless p List.mem_cons_self)]
    exact @afterInitializer_append 0 p stop ts rest h.2
      (fun u hu => hless u (List.mem_cons_of_mem p hu)) hstop

theorem afterInitializer_of_endsEarly (h : isBalanced [",", ";"] 0 ts = true)
    (hless : ∀ t ∈ ts, t.isOperator "<" = false)
    (hstop : stop.isMark "," = true ∨ stop.isMark ";" = true) (hends : endsEarly ts = true) :
    (afterInitializer none 0 0 (ts ++ stop :: rest)).head?.any (·.isMark ",") = false := by
  simpa [hends] using @afterInitializer_cases stop ts rest h hless hstop

theorem afterInitializer_of_not_endsEarly (h : isBalanced [",", ";"] 0 ts = true)
    (hless : ∀ t ∈ ts, t.isOperator "<" = false)
    (hstop : stop.isMark "," = true ∨ stop.isMark ";" = true) (hends : endsEarly ts = false) :
    afterInitializer none 0 0 (ts ++ stop :: rest) = stop :: rest := by
  simpa [hends] using @afterInitializer_cases stop ts rest h hless hstop

end Initializer

end SymbolAtlas.Script
