import SymbolAtlas.Proofs.Script.Statement

/-! # Statements in which every bracket is closed

In tokens whose brackets nest, whose angle brackets are closed and which end with a semicolon, every
reader of a declaration stops: a pattern at the bracket that closes it, an annotation or an
initialiser at the semicolon, a list of type parameters where it is closed.
-/

namespace SymbolAtlas.Script

open Token

/-! ## Nesting -/

def closerOf (opener : String) : String :=
  if opener = "(" then ")" else if opener = "[" then "]" else "\x7d"

/-- Whether the brackets of the tokens nest, when those of `awaited` are to be closed, the first
one first. -/
def nests (awaited : List String) : List Token → Bool
  | [] => awaited.isEmpty
  | t :: ts =>
    if t.isOpener then nests (closerOf t.text :: awaited) ts
    else if t.isCloser then
      match awaited with
      | [] => false
      | closer :: awaited => t.text == closer && nests awaited ts
    else nests awaited ts

section Nests

variable {awaited outer : List String} {closer : String} {t : Token} {ts rest : List Token}

theorem nests_opener (ht : t.isOpener = true) :
    nests awaited (t :: ts) = nests (closerOf t.text :: awaited) ts := if_pos ht

theorem isOpener_of_isCloser (ht : t.isCloser = true) : t.isOpener = false := by
  cases t with
  | plain k p s =>
    simp only [isCloser_plain, isOpener_plain, Bool.and_eq_true, decide_eq_true_eq] at ht ⊢
    obtain ⟨rfl, ht⟩ := ht
    simp only [List.contains_eq_mem, List.mem_cons, List.not_mem_nil, or_false,
      decide_eq_true_eq] at ht
    rcases ht with rfl | rfl | rfl <;> rfl
  | template p s inside => cases ht

theorem nests_closer (ht : t.isCloser = true) :
    nests (closer :: awaited) (t :: ts) = (t.text == closer && nests awaited ts) := by
  rw [nests, if_neg (Bool.eq_false_iff.mp (isOpener_of_isCloser ht)), if_pos ht]

theorem nests_closer_nil (ht : t.isCloser = true) : nests [] (t :: ts) = false := by
  rw [nests, if_neg (Bool.eq_false_iff.mp (isOpener_of_isCloser ht)), if_pos ht]

theorem nests_other (hopen : t.isOpener = false) (hclose : t.isCloser = false) :
    nests awaited (t :: ts) = nests awaited ts := by
  cases awaited <;>
    rw [nests, if_neg (Bool.eq_false_iff.mp hopen), if_neg (Bool.eq_false_iff.mp hclose)]

theorem exists_nests_of_suffix (h : nests awaited ts = true) (hsuffix : rest <:+ ts) :
    ∃ awaited', nests awaited' rest = true := by
  induction ts generalizing awaited with
  | nil =>
    obtain rfl := List.suffix_nil.mp hsuffix
    exact ⟨awaited, h⟩
  | cons t ts ih =>
    rcases List.suffix_cons_iff.mp hsuffix with rfl | hsuffix
    · exact ⟨awaited, h⟩
    cases hopen : t.isOpener with
    | true => exact ih (nests_opener hopen ▸ h) hsuffix
    | false =>
      cases hclose : t.isCloser with
      | false => exact ih (nests_other hopen hclose ▸ h) hsuffix
      | true =>
        cases awaited with
        | nil => rw [nests_closer_nil hclose] at h; cases h
        | cons closer awaited =>
          rw [nests_closer hclose, Bool.and_eq_true] at h
          exact ih h.2 hsuffix

theorem depthAfter_cons (depth : Nat) (t : Token) (ts : List Token) :
    depthAfter depth (t :: ts) = depthAfter (bracketDepth depth t) ts := rfl

theorem depthAfter_of_nests (h : nests awaited ts = true) : depthAfter awaited.length ts = 0 := by
  induction ts generalizing awaited with
  | nil => exact List.length_eq_zero_iff.mpr (List.isEmpty_iff.mp h)
  | cons t ts ih =>
    rw [depthAfter_cons, bracketDepth]
    cases hopen : t.isOpener with
    | true =>
      rw [if_pos rfl]
      exact ih (nests_opener hopen ▸ h)
    | false =>
      rw [if_neg Bool.false_ne_true]
      cases hclose : t.isCloser with
      | false =>
        rw [if_neg Bool.false_ne_true]
        exact ih (nests_other hopen hclose ▸ h)
      | true =>
        rw [if_pos rfl]
        cases awaited with
        | nil => rw [nests_closer_nil hclose] at h; cases h
        | cons closer awaited =>
          rw [nests_closer hclose, Bool.and_eq_true] at h
          exact ih h.2

end Nests

/-! ## Inside brackets -/

/-- The tokens end with a semicolon, and come to it after closing the brackets `outer`, and maybe
others first. -/
def Inside (outer : List String) (ts : List Token) : Prop :=
  EndsInSemicolon ts ∧ ∃ inner, nests (inner ++ outer) ts = true

namespace Inside

variable {outer : List String} {closer : String} {t : Token} {ts : List Token}

theorem ne_nil (h : Inside outer ts) : ts ≠ [] := h.1.ne_nil

theorem of_nests (hlast : EndsInSemicolon ts) (h : nests outer ts = true) : Inside outer ts :=
  ⟨hlast, [], h⟩

theorem of_append {inner : List String} (h : Inside (inner ++ outer) ts) : Inside outer ts := by
  obtain ⟨hlast, inner', h⟩ := h
  rw [← List.append_assoc] at h
  exact ⟨hlast, _, h⟩

/-- A token that is no bracket is passed. -/
theorem pass (h : Inside outer (t :: ts)) (hopen : t.isOpener = false) (hclose : t.isCloser = false)
    (hmark : t.isMark ";" = false) : Inside outer ts := by
  obtain ⟨hlast, inner, h⟩ := h
  exact ⟨hlast.tail hmark, inner, nests_other hopen hclose ▸ h⟩

/-- After an opening bracket its closing one is awaited first. -/
theorem opened (h : Inside outer (t :: ts)) (hopen : t.isOpener = true)
    (hmark : t.isMark ";" = false) :
    ∃ inner, Inside (closerOf t.text :: (inner ++ outer)) ts := by
  obtain ⟨hlast, inner, h⟩ := h
  exact ⟨inner, .of_nests (hlast.tail hmark) (nests_opener hopen ▸ h)⟩

/-- A bracket is still to be closed, so the semicolon at the end is yet to come. -/
theorem rest_ne_nil (h : Inside (closer :: outer) (t :: ts)) : ts ≠ [] := by
  rintro rfl
  obtain ⟨⟨p, hlast⟩, inner, h⟩ := h
  cases hlast
  rw [nests_other rfl rfl, nests, List.isEmpty_iff] at h
  exact absurd h (List.append_ne_nil_of_right_ne_nil inner (List.cons_ne_nil closer outer))

theorem tail (h : Inside (closer :: outer) (t :: ts)) : EndsInSemicolon ts :=
  h.1.of_suffix (List.suffix_cons t ts) h.rest_ne_nil

/-- A token is passed that does not close the bracket awaited first. -/
theorem pass_of_ne (h : Inside (closer :: outer) (t :: ts)) (ht : t.isMark closer = false) :
    Inside (closer :: outer) ts := by
  refine ⟨h.tail, ?_⟩
  obtain ⟨_, inner, h⟩ := h
  cases hopen : t.isOpener with
  | true => exact ⟨closerOf t.text :: inner, nests_opener hopen ▸ h⟩
  | false =>
    cases hclose : t.isCloser with
    | false => exact ⟨inner, nests_other hopen hclose ▸ h⟩
    | true =>
      cases inner with
      | nil =>
        rw [List.nil_append, nests_closer hclose, Bool.and_eq_true] at h
        rw [isCloser, Bool.and_eq_true] at hclose
        rw [isMark, is, hclose.1, h.1, Bool.true_and] at ht
        cases ht
      | cons c inner =>
        rw [List.cons_append, nests_closer hclose, Bool.and_eq_true] at h
        exact ⟨inner, h.2⟩

/-- A closing bracket closes the bracket awaited first, or one inside it. -/
theorem close (h : Inside (closer :: outer) (t :: ts)) (ht : t.isCloser = true) :
    Inside outer ts := by
  refine ⟨h.tail, ?_⟩
  obtain ⟨_, inner, h⟩ := h
  cases inner with
  | nil =>
    rw [List.nil_append, nests_closer ht, Bool.and_eq_true] at h
    exact ⟨[], h.2⟩
  | cons c inner =>
    rw [List.cons_append, nests_closer ht, Bool.and_eq_true, ← List.singleton_append,
      ← List.append_assoc] at h
    exact ⟨_, h.2⟩

end Inside

/-! ## Patterns are closed -/

section Pattern

variable {outer : List String} {closer : String} {t : Token} {ts rest names : List Token}
  {steps : Nat}

theorem untilClosed_of_nests {opened : List String}
    (h : nests (opened ++ closer :: outer) ts = true) :
    ∃ inner rest, untilClosed opened.length ts = some (inner, rest) ∧ nests outer rest = true := by
  induction ts generalizing opened with
  | nil =>
    rw [nests, List.isEmpty_iff] at h
    exact absurd h (List.append_ne_nil_of_right_ne_nil opened (List.cons_ne_nil closer outer))
  | cons t ts ih =>
    rw [untilClosed_cons]
    cases hopen : t.isOpener with
    | true =>
      obtain ⟨inner, rest, hrest, hnests⟩ :=
        @ih (closerOf t.text :: opened) (nests_opener hopen ▸ h)
      rw [List.length_cons] at hrest
      exact ⟨t :: inner, rest, by rw [if_pos rfl, hrest]; rfl, hnests⟩
    | false =>
      rw [if_neg Bool.false_ne_true]
      cases hclose : t.isCloser with
      | false =>
        obtain ⟨inner, rest, hrest, hnests⟩ := ih (nests_other hopen hclose ▸ h)
        exact ⟨t :: inner, rest, by rw [if_neg Bool.false_ne_true, hrest]; rfl, hnests⟩
      | true =>
        rw [if_pos rfl]
        cases opened with
        | nil =>
          rw [List.nil_append, nests_closer hclose, Bool.and_eq_true] at h
          exact ⟨[], ts, rfl, h.2⟩
        | cons c opened =>
          rw [List.cons_append, nests_closer hclose, Bool.and_eq_true] at h
          obtain ⟨inner, rest, hrest, hnests⟩ := ih h.2
          exact ⟨t :: inner, rest, by simp only [List.length_cons, hrest]; rfl, hnests⟩

theorem inside_fromStop {stops opened inner : List String} (hlast : EndsInSemicolon ts)
    (h : nests (opened ++ (inner ++ closer :: outer)) ts = true) :
    Inside (closer :: outer) (fromStop stops opened.length ts) := by
  induction ts generalizing opened with
  | nil => exact absurd rfl hlast.ne_nil
  | cons t ts ih =>
    have hinside : Inside (closer :: outer) (t :: ts) :=
      ⟨hlast, opened ++ inner, by rw [List.append_assoc]; exact h⟩
    have hts : EndsInSemicolon ts := hinside.tail
    rw [fromStop_cons]
    split
    · next hstop =>
      simp only [Bool.and_eq_true, decide_eq_true_eq, List.length_eq_zero_iff] at hstop
      obtain ⟨⟨rfl, _⟩, _⟩ := hstop
      exact ⟨hlast, inner, h⟩
    cases hopen : t.isOpener with
    | true =>
      rw [if_pos rfl]
      exact @ih (closerOf t.text :: opened) hts (nests_opener hopen ▸ h)
    | false =>
      rw [if_neg Bool.false_ne_true]
      cases hclose : t.isCloser with
      | false =>
        rw [if_neg Bool.false_ne_true]
        exact ih hts (nests_other hopen hclose ▸ h)
      | true =>
        rw [if_pos rfl]
        cases opened with
        | nil => exact ⟨hlast, inner, h⟩
        | cons c opened =>
          rw [List.cons_append, nests_closer hclose, Bool.and_eq_true] at h
          exact ih hts h.2

theorem inside_afterDefaultValue {closer' : String} (h : Inside (closer :: outer) ts) :
    Inside (closer :: outer) (afterDefaultValue closer' ts) := by
  cases ts with
  | nil => exact h
  | cons t ts =>
    rw [afterDefaultValue]
    split
    · next hequals =>
      have hts := h.pass_of_ne (isMark_of_isOperator hequals)
      obtain ⟨hlast, inner, h⟩ := hts
      exact @inside_fromStop _ _ _ _ [] _ hlast h
    · exact h

theorem inside_afterKey (h : Inside (closer :: outer) (t :: ts)) (ht : t.isMark closer = false) :
    Inside (closer :: outer) (afterKey (t :: ts)) := by
  rw [afterKey]
  split
  · next hbracket =>
    obtain ⟨p, rfl⟩ := eq_of_isMark hbracket
    have hlast := h.tail
    obtain ⟨_, inner, h⟩ := h
    rw [nests_opener rfl] at h
    obtain ⟨_, rest, hrest, hnests⟩ := @untilClosed_of_nests _ _ _ [] h
    rw [List.length_nil] at hrest
    rw [afterClosed, hrest]
    exact ⟨hlast.of_suffix (untilClosed_suffix hrest) (untilClosed_rest_ne_nil hlast hrest),
      inner, hnests⟩
  · exact h.pass_of_ne ht

/-- A target that is read in `steps` steps is read up to a place inside the same brackets. -/
def TargetsClose (steps : Nat) : Prop :=
  ∀ outer ts names rest, 2 * ts.length < steps → Inside outer ts →
    target? steps ts = some (names, rest) → Inside outer rest

theorem TargetsClose.getD (ih : TargetsClose steps) (hsteps : 2 * ts.length < steps)
    (h : Inside outer ts) : Inside outer ((target? steps ts).getD ([], ts)).2 := by
  cases ht : target? steps ts with
  | none => exact h
  | some split => exact ih outer ts _ _ hsteps h ht

theorem TargetsClose.keyedTarget (ih : TargetsClose steps) {own : List Token}
    (hsteps : 2 * ts.length < steps) (h : Inside outer ts) :
    Inside outer (keyedTarget steps own ts).2 := by
  cases ts with
  | nil => exact h
  | cons colon rest =>
    rw [List.length_cons] at hsteps
    rw [Script.keyedTarget]
    split
    · next hcolon =>
      obtain ⟨p, rfl⟩ := eq_of_isMark hcolon
      exact ih.getD (by omega) (h.pass rfl rfl rfl)
    · exact h

theorem TargetsClose.entry (ih : TargetsClose steps) (hsteps : 2 * (t :: ts).length < steps)
    (h : Inside (closer :: outer) (t :: ts)) (ht : t.isMark closer = false) :
    Inside (closer :: outer) (entry steps closer t ts).2 := by
  have hpass := h.pass_of_ne ht
  have hlength : 2 * ts.length < steps := by
    rw [List.length_cons] at hsteps
    omega
  rw [Script.entry]
  split
  · exact ih.getD hlength hpass
  split
  · have hle := (afterKey_suffix t ts).length_le
    exact ih.keyedTarget (by omega) (inside_afterKey h ht)
  · cases htarget : target? steps (t :: ts) with
    | none => exact hpass
    | some split => exact ih _ _ _ _ hsteps h htarget

/-- The entries of a pattern are read up to a place after the bracket that closes it, or one inside
it. -/
def EntriesClose (steps : Nat) : Prop :=
  ∀ closer ∈ ["\x7d", "]"], ∀ outer ts, 2 * ts.length + 1 < steps →
    Inside (closer :: outer) ts → Inside outer (entries steps closer ts).2

theorem EntriesClose.targetsClose (ih : EntriesClose steps) : TargetsClose (steps + 1) := by
  intro outer ts names rest hsteps h htarget
  cases ts with
  | nil => exact absurd rfl h.ne_nil
  | cons t ts =>
    rw [List.length_cons] at hsteps
    have pattern {closer : String} (hcloser : closer ∈ ["\x7d", "]"])
        (hinside : ∃ inner, Inside (closer :: (inner ++ outer)) ts)
        (htarget : some (entries steps closer ts) = some (names, rest)) : Inside outer rest := by
      obtain ⟨inner, hinside⟩ := hinside
      have hrest := ih closer hcloser (inner ++ outer) ts (by omega) hinside
      rw [Option.some.inj htarget] at hrest
      exact hrest.of_append
    rw [target_cons] at htarget
    split at htarget
    · next hmark =>
      obtain ⟨p, rfl⟩ := eq_of_isMark hmark
      exact @pattern "\x7d" (by decide) (h.opened rfl rfl) htarget
    split at htarget
    · next hmark =>
      obtain ⟨p, rfl⟩ := eq_of_isMark hmark
      exact @pattern "]" (by decide) (h.opened rfl rfl) htarget
    split at htarget
    · next hname =>
      cases htarget
      exact h.pass (isOpener_of_hasKind hname (by decide))
        (isCloser_of_hasKind hname (by decide)) (isMark_of_hasKind hname (by decide))
    · cases htarget

theorem EntriesClose.succ (ihTarget : TargetsClose steps) (ih : EntriesClose steps) :
    EntriesClose (steps + 1) := by
  intro closer hcloser outer ts hsteps h
  cases ts with
  | nil => exact absurd rfl h.ne_nil
  | cons t ts =>
    rw [List.length_cons] at hsteps
    rw [entries_cons]
    split
    · next hmark =>
      obtain ⟨p, rfl⟩ := eq_of_isMark hmark
      have hclose : ∀ s ∈ ["\x7d", "]"], isCloser (.plain .punctuation p s) = true := by simp
      exact h.close (hclose closer hcloser)
    next hmark =>
    split
    · next hcomma =>
      obtain ⟨p, rfl⟩ := eq_of_isMark hcomma
      exact ih closer hcloser outer ts (by omega) (h.pass rfl rfl rfl)
    · have hentry := ihTarget.entry (by rw [List.length_cons]; omega) h
        (Bool.eq_false_iff.mpr hmark)
      have hle := (afterEntry_suffix steps closer t ts).length_le
      exact ih closer hcloser outer _ (by omega) (inside_afterDefaultValue hentry)

theorem pattern_closes (steps : Nat) : TargetsClose steps ∧ EntriesClose steps := by
  induction steps with
  | zero => exact ⟨fun _ _ _ _ h => absurd h (Nat.not_lt_zero _),
      fun _ _ _ _ h => absurd h (Nat.not_lt_zero _)⟩
  | succ steps ih => exact ⟨ih.2.targetsClose, ih.2.succ ih.1⟩

end Pattern

/-! ## Angle brackets are closed -/

/-- The depth of angle brackets after some tokens, when all marks count. -/
def anglesAfter (depth : Nat) (ts : List Token) : Nat := ts.foldl angleDepth depth

theorem anglesAfter_cons (depth : Nat) (t : Token) (ts : List Token) :
    anglesAfter depth (t :: ts) = anglesAfter (angleDepth depth t) ts := rfl

theorem angleDepth_le_angleDepth {m n : Nat} (h : m ≤ n) (t : Token) :
    angleDepth m t ≤ angleDepth n t := by
  unfold angleDepth
  omega

theorem anglesAfter_le_anglesAfter {m n : Nat} (h : m ≤ n) (ts : List Token) :
    anglesAfter m ts ≤ anglesAfter n ts := by
  induction ts generalizing m n with
  | nil => exact h
  | cons t ts ih => exact ih (angleDepth_le_angleDepth h t)

theorem bracketDepth_le_bracketDepth {m n : Nat} (h : m ≤ n) (t : Token) :
    bracketDepth m t ≤ bracketDepth n t := by
  unfold bracketDepth
  split
  · omega
  · split <;> omega

theorem depthAfter_le_depthAfter {m n : Nat} (h : m ≤ n) (ts : List Token) :
    depthAfter m ts ≤ depthAfter n ts := by
  induction ts generalizing m n with
  | nil => exact h
  | cons t ts ih => exact ih (bracketDepth_le_bracketDepth h t)

/-- Tokens up to a semicolon, the rest of a list whose brackets nest and whose angle brackets are
closed. -/
structure Closing (ts : List Token) : Prop where
  endsInSemicolon : EndsInSemicolon ts
  exists_nests : ∃ awaited, nests awaited ts = true
  angles : anglesAfter 0 ts = 0

namespace Closing

variable {t : Token} {ts rest : List Token} {depth angles : Nat}

theorem of_suffix (h : Closing ts) (hsuffix : rest <:+ ts) (hrest : rest ≠ []) : Closing rest where
  endsInSemicolon := h.endsInSemicolon.of_suffix hsuffix hrest
  exists_nests := by
    obtain ⟨awaited, hnests⟩ := h.exists_nests
    exact exists_nests_of_suffix hnests hsuffix
  angles := by
    obtain ⟨before, rfl⟩ := hsuffix
    have hangles := h.angles
    rw [anglesAfter, List.foldl_append] at hangles
    exact Nat.le_zero.mp (hangles ▸ anglesAfter_le_anglesAfter (Nat.zero_le _) rest)

theorem tail (h : Closing (t :: ts)) (ht : t.isMark ";" = false) : Closing ts :=
  h.of_suffix (List.suffix_cons t ts) (h.endsInSemicolon.tail ht).ne_nil

/-- No bracket is left open after the tokens. -/
theorem depth_eq_zero (h : Closing ts) : depthAfter 0 ts = 0 := by
  obtain ⟨awaited, hnests⟩ := h.exists_nests
  have hle := depthAfter_le_depthAfter (Nat.zero_le awaited.length) ts
  rw [depthAfter_of_nests hnests] at hle
  exact Nat.le_zero.mp hle

end Closing

/-! ## Every reader stops -/

section Stops

variable {t : Token} {ts : List Token} {depth angles angles' : Nat} {before : Option Token}

theorem angleDepth_semicolon (depth : Nat) (p : Position) :
    angleDepth depth (.plain .punctuation p ";") = depth := by
  simp [angleDepth, angleChange]

/-- A list of type parameters ends before the semicolon. -/
theorem afterAngles_ne_nil {depth : Int} (hlast : EndsInSemicolon ts) (hdepth : 0 < depth)
    (hangles : anglesAfter depth.toNat ts = 0) : afterAngles depth ts ≠ [] := by
  induction ts generalizing depth with
  | nil => exact absurd rfl hlast.ne_nil
  | cons t ts ih =>
    rw [anglesAfter_cons] at hangles
    by_cases hts : ts = []
    · -- A semicolon closes nothing, so the list would have stayed open.
      subst hts
      obtain ⟨p, hlast⟩ := hlast
      cases hlast
      rw [angleDepth_semicolon] at hangles
      exact absurd (Int.toNat_eq_zero.mp hangles) (Int.not_le.mpr hdepth)
    · have hlast' := hlast.of_suffix (List.suffix_cons t ts) hts
      rw [afterAngles]
      split
      · exact hts
      · next hnext =>
        refine ih hlast' (Int.not_le.mp hnext) ?_
        rwa [angleDepth, Int.toNat_of_nonneg (Int.le_of_lt hdepth)] at hangles

theorem afterVariableType_cons (depth angles : Nat) (t : Token) (ts : List Token) :
    afterVariableType depth angles (t :: ts) =
      if depth = 0 && t.isCloser then t :: ts
      else if bracketDepth depth t = 0 && angleDepth angles t = 0 &&
          (t.isOperator "=" || t.isMark "," || t.isMark ";") then t :: ts
      else afterVariableType (bracketDepth depth t) (angleDepth angles t) ts := rfl

/-- An annotation ends at the semicolon, if not before. -/
theorem afterVariableType_ne_nil (hlast : EndsInSemicolon ts) (hdepth : depthAfter depth ts = 0)
    (hangles : anglesAfter angles ts = 0) : afterVariableType depth angles ts ≠ [] := by
  induction ts generalizing depth angles with
  | nil => exact absurd rfl hlast.ne_nil
  | cons t ts ih =>
    rw [anglesAfter_cons] at hangles
    by_cases hts : ts = []
    · subst hts
      obtain ⟨p, hlast⟩ := hlast
      cases hlast
      -- The semicolon comes last, and after it nothing is open: so nothing was before it.
      obtain rfl : depth = 0 := hdepth
      obtain rfl : angles = 0 := angleDepth_semicolon angles p ▸ hangles
      simp [afterVariableType, angleDepth, angleChange]
    · have hlast' := hlast.of_suffix (List.suffix_cons t ts) hts
      rw [afterVariableType_cons]
      split
      · exact List.cons_ne_nil t ts
      split
      · exact List.cons_ne_nil t ts
      · exact ih hlast' hdepth hangles

/-- The depth of the angle brackets that an initialiser counts: those of type arguments. -/
def typeArgumentDepth (before : Option Token) (angles : Nat) (t : Token) : Nat :=
  if opensTypeArguments before t then angles + 1
  else if angleChange t < 0 then angleDepth angles t
  else angles

theorem afterInitializer_cons (before : Option Token) (depth angles : Nat) (t : Token)
    (ts : List Token) :
    afterInitializer before depth angles (t :: ts) =
      if (depth = 0 && angles = 0 : Bool) &&
          before.any (fun p => p.line < t.line && breaksBetween p t) then t :: ts
      else if depth = 0 && t.isCloser then t :: ts
      else if bracketDepth depth t = 0 && angles = 0 && (t.isMark "," || t.isMark ";") then t :: ts
      else afterInitializer (some t) (bracketDepth depth t) (typeArgumentDepth before angles t)
        ts := rfl

theorem typeArgumentDepth_le (h : angles ≤ angles') (before : Option Token) (t : Token) :
    typeArgumentDepth before angles t ≤ angleDepth angles' t := by
  unfold typeArgumentDepth
  split
  · next hopen =>
    have hless : t.isOperator "<" = true := (Bool.and_eq_true_iff.mp hopen).1
    rw [angleDepth, angleChange, if_pos hless]
    omega
  split
  · exact angleDepth_le_angleDepth h t
  · unfold angleDepth
    omega

/-- An initialiser ends at the semicolon, if not before: it counts no more angle brackets than
there are. -/
theorem afterInitializer_ne_nil (hlast : EndsInSemicolon ts) (hdepth : depthAfter depth ts = 0)
    (hangles : anglesAfter angles' ts = 0) (hle : angles ≤ angles') :
    afterInitializer before depth angles ts ≠ [] := by
  induction ts generalizing before depth angles angles' with
  | nil => exact absurd rfl hlast.ne_nil
  | cons t ts ih =>
    rw [anglesAfter_cons] at hangles
    by_cases hts : ts = []
    · subst hts
      obtain ⟨p, hlast⟩ := hlast
      cases hlast
      obtain rfl : depth = 0 := hdepth
      obtain rfl : angles' = 0 := angleDepth_semicolon angles' p ▸ hangles
      obtain rfl : angles = 0 := Nat.le_zero.mp hle
      simp [afterInitializer]
    · have hlast' := hlast.of_suffix (List.suffix_cons t ts) hts
      rw [afterInitializer_cons]
      split
      · exact List.cons_ne_nil t ts
      split
      · exact List.cons_ne_nil t ts
      split
      · exact List.cons_ne_nil t ts
      · exact ih hlast' hdepth hangles (typeArgumentDepth_le hle before t)

end Stops

/-! ## Every declaration is read within its statement -/

namespace Closing

variable {t : Token} {ts : List Token} {p : Token → Bool} {read : List Token → List Token}

theorem stepOver (h : Closing ts) (hp : ∀ t, p t = true → t.isMark ";" = false)
    (hread : WalksForward read) (hstops : ∀ us, Closing us → read us ≠ []) :
    Closing (stepOver p read ts) := by
  refine h.of_suffix ((hread.stepOver p).suffix ts) ?_
  cases ts with
  | nil => exact absurd rfl h.endsInSemicolon.ne_nil
  | cons t ts =>
    rw [Script.stepOver]
    split
    · next ht => exact hstops ts (h.tail (hp t ht))
    · exact List.cons_ne_nil t ts

theorem afterDeclarator_ne_nil (h : Closing ts) : afterDeclarator ts ≠ [] := by
  have hcolon (t : Token) (ht : t.isMark ":" = true) : t.isMark ";" = false := by
    obtain ⟨p, rfl⟩ := eq_of_isMark ht
    rfl
  have hannotation (us : List Token) (hus : Closing us) : afterVariableType 0 0 us ≠ [] :=
    Script.afterVariableType_ne_nil hus.endsInSemicolon hus.depth_eq_zero hus.angles
  have hinitializer (us : List Token) (hus : Closing us) : afterInitializer none 0 0 us ≠ [] :=
    Script.afterInitializer_ne_nil hus.endsInSemicolon hus.depth_eq_zero hus.angles
      (Nat.le_refl 0)
  have hmark := h.stepOver (p := (·.isOperator "!")) (fun _ => isMark_of_isOperator)
    WalksForward.id fun us hus => hus.endsInSemicolon.ne_nil
  have htype := hmark.stepOver hcolon walksForward_afterVariableType hannotation
  have hvalue := htype.stepOver (p := (·.isOperator "=")) (fun _ => isMark_of_isOperator)
    walksForward_afterInitializer hinitializer
  rw [afterDeclarator_eq]
  exact hvalue.endsInSemicolon.ne_nil

/-- After the target of a declarator its statement goes on. -/
theorem of_target {steps : Nat} {names rest : List Token} (h : Closing ts)
    (hsteps : 2 * ts.length < steps) (htarget : target? steps ts = some (names, rest)) :
    Closing rest := by
  obtain ⟨awaited, hnests⟩ := h.exists_nests
  have hinside := (pattern_closes steps).1 awaited ts names rest hsteps
    (.of_nests h.endsInSemicolon hnests) htarget
  exact h.of_suffix (target_suffix htarget) hinside.ne_nil

theorem afterDeclarators_ne_nil {steps : Nat} (h : Closing ts) (hsteps : ts.length < steps) :
    afterDeclarators steps ts ≠ [] := by
  induction steps generalizing ts with
  | zero => exact absurd hsteps (Nat.not_lt_zero _)
  | succ steps ih =>
    rw [afterDeclarators]
    cases htarget : target? (2 * ts.length + 1) ts with
    | none => exact h.endsInSemicolon.ne_nil
    | some split =>
      obtain ⟨names, rest⟩ := split
      have hrest := h.of_target (Nat.lt_succ_self _) htarget
      have hnext := hrest.afterDeclarator_ne_nil
      have hclosing := hrest.of_suffix (walksForward_afterDeclarator.suffix rest) hnext
      have hlength := (walksForward_afterDeclarator.suffix rest).length_le
      have hle := (target_suffix htarget).length_le
      cases hafter : afterDeclarator rest with
      | nil => exact absurd hafter hnext
      | cons comma after =>
        rw [hafter] at hclosing hlength
        rw [List.length_cons] at hlength
        simp only [hafter]
        split
        · next hcomma =>
          obtain ⟨p, rfl⟩ := eq_of_isMark hcomma
          exact ih (hclosing.tail rfl) (by omega)
        · exact List.cons_ne_nil comma after

theorem afterTypeParameters_ne_nil (h : Closing ts) : afterTypeParameters ts ≠ [] := by
  cases ts with
  | nil => exact absurd rfl h.endsInSemicolon.ne_nil
  | cons t ts =>
    rw [afterTypeParameters]
    split
    · next hless =>
      have hchange : angleChange t = 1 := if_pos hless
      have hangles := h.angles
      rw [anglesAfter_cons, angleDepth, hchange] at hangles
      have htail := h.tail (isMark_of_isOperator hless)
      rw [afterAngles, hchange]
      exact afterAngles_ne_nil htail.endsInSemicolon Int.one_pos hangles
    · exact List.cons_ne_nil t ts

/-- What a name may declare is read off the rest of its statement. -/
theorem readsName {name : Token} (h : Closing (name :: ts)) :
    (!isDeclarable name || !(afterTypeParameters ts).isEmpty) = true := by
  by_cases hname : isDeclarable name = true
  · have hrest := h.tail (isMark_of_isDeclarable hname)
    simpa [hname] using hrest.afterTypeParameters_ne_nil
  · simp [hname]

/-- Whatever a word declares is read off the rest of its statement. -/
theorem readsWithin (h : Closing ts) (t : Token) : readsWithin t ts = true := by
  unfold Script.readsWithin
  split
  case h_1 | h_2 | h_3 =>
    rw [Bool.or_eq_true]
    exact .inr (by simpa using h.afterDeclarators_ne_nil (Nat.lt_succ_self _))
  case h_4 =>
    have hstar := h.stepOver (p := (·.isOperator "*")) (fun _ => isMark_of_isOperator)
      WalksForward.id fun us hus => hus.endsInSemicolon.ne_nil
    cases hname : Script.stepOver (·.isOperator "*") id ts with
    | nil => exact absurd hname hstar.endsInSemicolon.ne_nil
    | cons name rest =>
      rw [hname] at hstar
      exact hstar.readsName
  case h_5 =>
    cases ts with
    | nil => rfl
    | cons name rest => exact h.readsName
  case h_6 => rfl

theorem declarationsWithin {depth : Nat} (h : Closing ts) : declarationsWithin depth ts = true := by
  induction ts generalizing depth with
  | nil => rfl
  | cons t ts ih =>
    rw [Script.declarationsWithin, Bool.and_eq_true]
    by_cases hmark : t.isMark ";" = true
    · obtain ⟨p, rfl⟩ := eq_of_isMark hmark
      refine ⟨by simp [isWord], ?_⟩
      by_cases hts : ts = []
      · rw [hts]
        rfl
      · exact ih (h.of_suffix (List.suffix_cons _ ts) hts)
    · have htail := h.tail (Bool.eq_false_iff.mpr hmark)
      exact ⟨by rw [htail.readsWithin t, Bool.or_true], ih htail⟩

end Closing

end SymbolAtlas.Script
