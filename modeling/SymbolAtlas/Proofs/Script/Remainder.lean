import SymbolAtlas.Script.TopLevel

/-! # Readers that stop inside their tokens

Each reader walks forward over a list of tokens and leaves the rest. A reader that leaves anything
has not seen the end of the list: whatever tokens follow, it stops at the same place.
-/

namespace SymbolAtlas.Script

/-- The reader leaves a last part of its tokens; if this is not empty, it leaves the same part
when more tokens follow, and then these. -/
structure WalksForward (read : List Token → List Token) : Prop where
  suffix : ∀ ts, read ts <:+ ts
  append : ∀ {ts}, read ts ≠ [] → ∀ more, read (ts ++ more) = read ts ++ more

namespace WalksForward

variable {f g : List Token → List Token}

theorem id : WalksForward id := ⟨fun _ => List.suffix_rfl, fun _ _ => rfl⟩

theorem nil (hf : WalksForward f) : f [] = [] := List.suffix_nil.mp (hf.suffix [])

theorem comp (hf : WalksForward f) (hg : WalksForward g) : WalksForward fun ts => f (g ts) where
  suffix ts := (hf.suffix _).trans (hg.suffix ts)
  append {ts} h more := by
    have hg' : g ts ≠ [] := fun hnil => h (by rw [hnil, hf.nil])
    rw [hg.append hg' more, hf.append h more]

end WalksForward

/-- Where a token stands that `p` holds of, read on after it. -/
def stepOver (p : Token → Bool) (read : List Token → List Token) : List Token → List Token
  | t :: rest => if p t then read rest else t :: rest
  | [] => []

theorem stepOver_of_not {p : Token → Bool} {ts : List Token} (h : ts.head?.any p = false)
    (f : List Token → List Token) : stepOver p f ts = ts := by
  cases ts with
  | nil => rfl
  | cons t ts => exact if_neg (Bool.eq_false_iff.mp h)

theorem WalksForward.stepOver {f : List Token → List Token} (hf : WalksForward f)
    (p : Token → Bool) : WalksForward (stepOver p f) where
  suffix ts := by
    cases ts with
    | nil => exact List.suffix_rfl
    | cons t ts =>
      rw [Script.stepOver]
      split
      · exact (hf.suffix ts).trans (List.suffix_cons t ts)
      · exact List.suffix_rfl
  append {ts} h more := by
    cases ts with
    | nil => exact absurd rfl h
    | cons t ts =>
      simp only [List.cons_append, Script.stepOver] at h ⊢
      split at h
      · next hp => rw [if_pos hp, if_pos hp, hf.append h]
      · next hp => rw [if_neg hp, if_neg hp, List.cons_append]

variable {ts rest : List Token} {stops : List String} {depth : Nat}

/-! ## Brackets -/

theorem fromStop_cons (stops : List String) (depth : Nat) (t : Token) (ts : List Token) :
    fromStop stops depth (t :: ts) =
      if depth = 0 && t.hasKind .punctuation && stops.contains t.text then t :: ts
      else if t.isOpener then fromStop stops (depth + 1) ts
      else if t.isCloser then
        match depth with
        | 0 => t :: ts
        | depth + 1 => fromStop stops depth ts
      else fromStop stops depth ts := by
  cases depth <;> rfl

theorem walksForward_fromStop : WalksForward (fromStop stops depth) where
  suffix ts := by
    fun_induction fromStop stops depth ts with
    | case1 => exact List.suffix_rfl
    | case2 => exact List.suffix_rfl
    | case3 depth t ts _ _ ih => exact ih.trans (List.suffix_cons t ts)
    | case4 => exact List.suffix_rfl
    | case5 t ts _ _ depth _ ih => exact ih.trans (List.suffix_cons t ts)
    | case6 depth t ts _ _ _ ih => exact ih.trans (List.suffix_cons t ts)
  append {ts} h more := by
    fun_induction fromStop stops depth ts with
    | case1 => exact absurd rfl h
    | case2 depth t ts hstop => rw [List.cons_append, fromStop_cons, if_pos hstop]
    | case3 depth t ts hstop hopen ih =>
      rw [List.cons_append, fromStop_cons, if_neg hstop, if_pos hopen, ih h]
    | case4 t ts hopen hclose hstop =>
      rw [List.cons_append, fromStop_cons, if_neg hstop, if_neg hopen, if_pos hclose]
    | case5 t ts hopen hclose depth hstop ih =>
      rw [List.cons_append, fromStop_cons, if_neg hstop, if_neg hopen, if_pos hclose]
      exact ih h
    | case6 depth t ts hstop hopen hclose ih =>
      rw [List.cons_append, fromStop_cons, if_neg hstop, if_neg hopen, if_neg hclose, ih h]

theorem untilClosed_cons (depth : Nat) (t : Token) (ts : List Token) :
    untilClosed depth (t :: ts) =
      if t.isOpener then (untilClosed (depth + 1) ts).map fun (inner, rest) => (t :: inner, rest)
      else if t.isCloser then
        match depth with
        | 0 => some ([], ts)
        | depth + 1 => (untilClosed depth ts).map fun (inner, rest) => (t :: inner, rest)
      else (untilClosed depth ts).map fun (inner, rest) => (t :: inner, rest) := by
  cases depth <;> rfl

theorem untilClosed_append {inner : List Token} (h : untilClosed depth ts = some (inner, rest))
    (more : List Token) : untilClosed depth (ts ++ more) = some (inner, rest ++ more) := by
  induction ts generalizing depth inner with
  | nil => cases h
  | cons t ts ih =>
    have step {n : Nat} (hn : (untilClosed n ts).map (fun (inner, rest) => (t :: inner, rest)) =
        some (inner, rest)) :
        (untilClosed n (ts ++ more)).map (fun (inner, rest) => (t :: inner, rest)) =
          some (inner, rest ++ more) := by
      obtain ⟨⟨_, _⟩, hrest, heq⟩ := Option.map_eq_some_iff.mp hn
      cases heq
      rw [ih hrest]
      rfl
    rw [List.cons_append]
    rw [untilClosed_cons] at h ⊢
    split at h
    · next hopen => exact (if_pos hopen).trans (step h)
    next hopen =>
    rw [if_neg hopen]
    split at h
    · next hclose =>
      rw [if_pos hclose]
      cases depth with
      | zero =>
        cases h
        rfl
      | succ depth => exact step h
    · next hclose => exact (if_neg hclose).trans (step h)

/-- The first token closes the bracket, or the closing one is among the others. -/
theorem untilClosed_cases {t : Token} {inner : List Token}
    (h : untilClosed depth (t :: ts) = some (inner, rest)) :
    t.isCloser = true ∧ rest = ts ∨ ∃ n inner', untilClosed n ts = some (inner', rest) := by
  have later {n : Nat} (hn : (untilClosed n ts).map (fun (inner, rest) => (t :: inner, rest)) =
      some (inner, rest)) : ∃ n inner', untilClosed n ts = some (inner', rest) := by
    obtain ⟨⟨inner', _⟩, hrest, heq⟩ := Option.map_eq_some_iff.mp hn
    cases heq
    exact ⟨n, inner', hrest⟩
  rw [untilClosed_cons] at h
  split at h
  · exact .inr (later h)
  split at h
  · next hclose =>
    cases depth with
    | zero =>
      cases h
      exact .inl ⟨hclose, rfl⟩
    | succ depth => exact .inr (later h)
  · exact .inr (later h)

theorem untilClosed_suffix {inner : List Token} (h : untilClosed depth ts = some (inner, rest)) :
    rest <:+ ts := by
  induction ts generalizing depth inner with
  | nil => cases h
  | cons t ts ih =>
    rcases untilClosed_cases h with ⟨_, rfl⟩ | ⟨n, inner', h⟩
    · exact List.suffix_cons t rest
    · exact (ih h).trans (List.suffix_cons t ts)

theorem walksForward_afterClosed : WalksForward afterClosed where
  suffix ts := by
    unfold afterClosed
    cases hts : untilClosed 0 ts with
    | none => exact List.nil_suffix
    | some split => exact untilClosed_suffix hts
  append {ts} h more := by
    unfold afterClosed at h ⊢
    cases hts : untilClosed 0 ts with
    | none =>
      rw [hts] at h
      exact absurd rfl h
    | some split => rw [untilClosed_append hts]

theorem walksForward_afterAngles {depth : Int} : WalksForward (afterAngles depth) where
  suffix ts := by fun_induction afterAngles depth ts <;> grind
  append {ts} h more := by fun_induction afterAngles depth ts <;> grind [afterAngles]

/-! ## Declarators -/

section Declarator

variable {before : Option Token} {angles : Nat}

theorem walksForward_afterVariableType : WalksForward (afterVariableType depth angles) where
  suffix ts := by fun_induction afterVariableType depth angles ts <;> grind
  append {ts} h more := by
    fun_induction afterVariableType depth angles ts <;> grind [afterVariableType]

theorem walksForward_afterInitializer : WalksForward (afterInitializer before depth angles) where
  suffix ts := by fun_induction afterInitializer before depth angles ts <;> grind
  append {ts} h more := by
    fun_induction afterInitializer before depth angles ts <;> grind [afterInitializer]

/-- After its target a declarator may have a mark, an annotation and an initialiser. -/
theorem afterDeclarator_eq (ts : List Token) :
    afterDeclarator ts =
      stepOver (·.isOperator "=") (afterInitializer none 0 0)
        (stepOver (·.isMark ":") (afterVariableType 0 0) (stepOver (·.isOperator "!") id ts)) := by
  have eq (p : Token → Bool) (f : List Token → List Token) (us : List Token) :
      stepOver p f us =
        match us with
        | t :: rest => if p t then f rest else us
        | [] => [] := by cases us <;> rfl
  rw [eq, eq, eq]
  rfl

theorem walksForward_afterDeclarator : WalksForward afterDeclarator := by
  rw [funext afterDeclarator_eq]
  have htype : WalksForward (afterVariableType 0 0) := walksForward_afterVariableType
  exact (walksForward_afterInitializer.stepOver _).comp
    ((htype.stepOver _).comp (WalksForward.id.stepOver _))

end Declarator

/-! ## Binding patterns -/

theorem afterDefaultValue_eq (closer : String) :
    afterDefaultValue closer = stepOver (·.isOperator "=") (fromStop [",", closer] 0) := by
  funext ts
  cases ts <;> rfl

theorem walksForward_afterDefaultValue {closer : String} :
    WalksForward (afterDefaultValue closer) := by
  rw [afterDefaultValue_eq]
  exact walksForward_fromStop.stepOver _

theorem afterKey_append {t : Token} (h : afterKey (t :: ts) ≠ []) (more : List Token) :
    afterKey (t :: (ts ++ more)) = afterKey (t :: ts) ++ more := by
  simp only [afterKey] at h ⊢
  split at h
  · next hopen => rw [if_pos hopen, if_pos hopen, walksForward_afterClosed.append h]
  · next hopen => rw [if_neg hopen, if_neg hopen]

theorem afterKey_suffix (t : Token) (ts : List Token) : afterKey (t :: ts) <:+ ts := by
  rw [afterKey]
  split
  · exact walksForward_afterClosed.suffix ts
  · exact List.suffix_rfl

/-- What an object pattern's entry with the names `own` binds, read from after its key: another
target, if a colon names one. -/
def keyedTarget (steps : Nat) (own : List Token) : List Token → List Token × List Token
  | colon :: rest =>
    if colon.isMark ":" then (target? steps rest).getD ([], rest) else (own, colon :: rest)
  | [] => (own, [])

/-- The names that the entry at the head of `t :: ts` binds, its default value apart, and the
tokens after it. -/
def entry (steps : Nat) (closer : String) (t : Token) (ts : List Token) :
    List Token × List Token :=
  if t.isMark "..." then (target? steps ts).getD ([], ts)
  else if closer == "\x7d" then
    keyedTarget steps (if t.hasKind .identifier then [t] else []) (afterKey (t :: ts))
  else (target? steps (t :: ts)).getD ([], ts)

theorem entries_cons (steps : Nat) (closer : String) (t : Token) (ts : List Token) :
    entries (steps + 1) closer (t :: ts) =
      if t.isMark closer then ([], ts)
      else if t.isMark "," then entries steps closer ts
      else
        let (names, rest) := entry steps closer t ts
        let (more, last) := entries steps closer (afterDefaultValue closer rest)
        (names ++ more, last) := by
  rw [entries, entry]
  rfl

theorem entries_nil_rest (steps : Nat) (closer : String) : (entries steps closer []).2 = [] := by
  cases steps <;> simp [entries]

theorem target_cons (steps : Nat) (t : Token) (ts : List Token) :
    target? (steps + 1) (t :: ts) =
      if t.isMark "\x7b" then some (entries steps "\x7d" ts)
      else if t.isMark "[" then some (entries steps "]" ts)
      else if t.hasKind .identifier then some ([t], ts)
      else none := by
  rw [target?]

theorem target_nil (steps : Nat) : target? steps [] = none := by
  cases steps <;> rw [target?]

/-- Whether a target stands here is seen at the first token. -/
theorem target_eq_none {steps steps' : Nat} {t : Token} {ts us : List Token}
    (h : target? (steps + 1) (t :: ts) = none) : target? (steps' + 1) (t :: us) = none := by
  rw [target_cons] at h ⊢
  split at h
  · cases h
  next hbrace =>
  split at h
  · cases h
  next hbracket =>
  split at h
  · cases h
  next hname => rw [if_neg hbrace, if_neg hbracket, if_neg hname]

theorem getD_target_suffix {steps : Nat} (us : List Token)
    (ih : ∀ t ts names rest, target? steps (t :: ts) = some (names, rest) → rest <:+ ts) :
    ((target? steps us).getD ([], us)).2 <:+ us := by
  cases us with
  | nil =>
    rw [target_nil]
    exact List.suffix_rfl
  | cons u us =>
    cases hu : target? steps (u :: us) with
    | none => exact List.suffix_rfl
    | some split => exact (ih u us _ _ hu).trans (List.suffix_cons u us)

theorem entry_suffix {steps : Nat} (closer : String) (t : Token) (ts : List Token)
    (ih : ∀ t ts names rest, target? steps (t :: ts) = some (names, rest) → rest <:+ ts) :
    (entry steps closer t ts).2 <:+ ts := by
  rw [entry]
  split
  · exact getD_target_suffix ts ih
  split
  · have hkey : afterKey (t :: ts) <:+ ts := afterKey_suffix t ts
    cases hrest : afterKey (t :: ts) with
    | nil => exact List.nil_suffix
    | cons colon rest =>
      rw [hrest] at hkey
      rw [keyedTarget]
      split
      · exact (getD_target_suffix rest ih).trans ((List.suffix_cons colon rest).trans hkey)
      · exact hkey
  · cases ht : target? steps (t :: ts) with
    | none => exact List.suffix_rfl
    | some split => exact ih t ts _ _ ht

/-- Targets and entries leave a part of their tokens, and a target takes at least one. -/
theorem pattern_suffix (steps : Nat) :
    (∀ t ts names rest, target? steps (t :: ts) = some (names, rest) → rest <:+ ts) ∧
      ∀ closer ts, (entries steps closer ts).2 <:+ ts := by
  induction steps with
  | zero =>
    refine ⟨fun t ts names rest h => ?_, fun closer ts => ?_⟩
    · rw [target?] at h
      cases h
    · simp only [entries, List.suffix_rfl]
  | succ steps ih =>
    obtain ⟨ihTarget, ihEntries⟩ := ih
    refine ⟨fun t ts names rest h => ?_, fun closer ts => ?_⟩
    · have pattern {closer : String} (h : some (entries steps closer ts) = some (names, rest)) :
          rest <:+ ts := by
        have := ihEntries closer ts
        rwa [Option.some.inj h] at this
      rw [target_cons] at h
      split at h
      · exact pattern h
      split at h
      · exact pattern h
      split at h
      · cases h
        exact List.suffix_rfl
      · cases h
    · cases ts with
      | nil => simp only [entries_nil_rest, List.suffix_rfl]
      | cons t ts =>
        rw [entries_cons]
        split
        · exact List.suffix_cons t ts
        split
        · exact (ihEntries closer ts).trans (List.suffix_cons t ts)
        · have hentry := entry_suffix closer t ts ihTarget
          exact (ihEntries closer _).trans
            ((walksForward_afterDefaultValue.suffix _).trans (hentry.trans (List.suffix_cons t ts)))

theorem target_suffix {steps : Nat} {names : List Token}
    (h : target? steps ts = some (names, rest)) : rest <:+ ts := by
  cases ts with
  | nil =>
    rw [target_nil] at h
    cases h
  | cons t ts => exact ((pattern_suffix steps).1 t ts names rest h).trans (List.suffix_cons t ts)

theorem afterEntry_suffix (steps : Nat) (closer : String) (t : Token) (ts : List Token) :
    afterDefaultValue closer (entry steps closer t ts).2 <:+ ts :=
  (walksForward_afterDefaultValue.suffix _).trans
    (entry_suffix closer t ts (pattern_suffix steps).1)

section Pattern

variable {steps steps' : Nat} {more : List Token}

/-- A target that is read in `steps` steps with tokens left is read in the same way in `steps'`
steps when `more` follows. -/
def TargetsStop (steps steps' : Nat) (more : List Token) : Prop :=
  ∀ ts names rest, 2 * ts.length < steps → 2 * (ts ++ more).length < steps' →
    target? steps ts = some (names, rest) → rest ≠ [] →
      target? steps' (ts ++ more) = some (names, rest ++ more)

def EntriesStop (steps steps' : Nat) (more : List Token) : Prop :=
  ∀ closer ts, 2 * ts.length + 1 < steps → 2 * (ts ++ more).length + 1 < steps' →
    (entries steps closer ts).2 ≠ [] → entries steps' closer (ts ++ more) =
      ((entries steps closer ts).1, (entries steps closer ts).2 ++ more)

theorem TargetsStop.getD (ih : TargetsStop steps steps' more) {us : List Token}
    (hsteps : 2 * us.length < steps) (hsteps' : 2 * (us ++ more).length < steps')
    (h : ((target? steps us).getD ([], us)).2 ≠ []) :
    (target? steps' (us ++ more)).getD ([], us ++ more) =
      (((target? steps us).getD ([], us)).1, ((target? steps us).getD ([], us)).2 ++ more) := by
  obtain ⟨steps, rfl⟩ := Nat.exists_eq_succ_of_ne_zero (Nat.ne_zero_of_lt hsteps)
  obtain ⟨steps', rfl⟩ := Nat.exists_eq_succ_of_ne_zero (Nat.ne_zero_of_lt hsteps')
  cases us with
  | nil =>
    rw [target_nil] at h
    exact absurd rfl h
  | cons u us =>
    cases hu : target? (steps + 1) (u :: us) with
    | none =>
      rw [List.cons_append, target_eq_none hu]
      rfl
    | some split =>
      rw [hu] at h
      rw [ih _ _ _ hsteps hsteps' hu h]
      rfl

theorem TargetsStop.keyedTarget (ih : TargetsStop steps steps' more) {own us : List Token}
    (hsteps : 2 * us.length < steps) (hsteps' : 2 * (us ++ more).length < steps')
    (h : (keyedTarget steps own us).2 ≠ []) :
    keyedTarget steps' own (us ++ more) =
      ((keyedTarget steps own us).1, (keyedTarget steps own us).2 ++ more) := by
  cases us with
  | nil => exact absurd rfl h
  | cons colon rest =>
    simp only [List.length_cons, List.cons_append] at hsteps hsteps'
    simp only [List.cons_append, Script.keyedTarget] at h ⊢
    split at h
    · next hcolon =>
      rw [if_pos hcolon, if_pos hcolon]
      exact ih.getD (by omega) (by omega) h
    · next hcolon => rw [if_neg hcolon, if_neg hcolon, List.cons_append]

theorem TargetsStop.entry (ih : TargetsStop steps steps' more) {closer : String} {t : Token}
    (hsteps : 2 * (t :: ts).length < steps) (hsteps' : 2 * (t :: ts ++ more).length < steps')
    (h : (entry steps closer t ts).2 ≠ []) :
    entry steps' closer t (ts ++ more) =
      ((entry steps closer t ts).1, (entry steps closer t ts).2 ++ more) := by
  have shorter {us : List Token} (hus : us <:+ ts) :
      2 * us.length < steps ∧ 2 * (us ++ more).length < steps' := by
    have hle := hus.length_le
    simp only [List.length_cons, List.length_append, List.cons_append] at hsteps hsteps' ⊢
    omega
  unfold Script.entry at h ⊢
  split at h
  · next hdots =>
    rw [if_pos hdots, if_pos hdots]
    exact ih.getD (shorter List.suffix_rfl).1 (shorter List.suffix_rfl).2 h
  next hdots =>
  rw [if_neg hdots, if_neg hdots]
  split at h
  · next hbrace =>
    rw [if_pos hbrace, if_pos hbrace]
    have hkey : afterKey (t :: ts) ≠ [] := by
      intro hnil
      rw [hnil] at h
      exact h rfl
    have hshorter := shorter (afterKey_suffix t ts)
    rw [afterKey_append hkey]
    exact ih.keyedTarget hshorter.1 hshorter.2 h
  · next hbrace =>
    rw [if_neg hbrace, if_neg hbrace]
    cases ht : target? steps (t :: ts) with
    | none =>
      obtain ⟨steps, rfl⟩ := Nat.exists_eq_succ_of_ne_zero (Nat.ne_zero_of_lt hsteps)
      obtain ⟨steps', rfl⟩ := Nat.exists_eq_succ_of_ne_zero (Nat.ne_zero_of_lt hsteps')
      rw [target_eq_none ht]
      rfl
    | some split =>
      rw [ht] at h
      have htarget := ih _ _ _ hsteps hsteps' ht h
      rw [List.cons_append] at htarget
      rw [htarget]
      rfl

theorem EntriesStop.targetsStop (ih : EntriesStop steps steps' more) :
    TargetsStop (steps + 1) (steps' + 1) more := by
  intro ts names rest hsteps hsteps' h hrest
  cases ts with
  | nil =>
    rw [target_nil] at h
    cases h
  | cons t ts =>
    simp only [List.length_cons, List.cons_append] at hsteps hsteps'
    have pattern {closer : String} (h : some (entries steps closer ts) = some (names, rest)) :
        some (entries steps' closer (ts ++ more)) = some (names, rest ++ more) := by
      have heq := Option.some.inj h
      rw [ih closer ts (by omega) (by omega) (by rw [heq]; exact hrest), heq]
    rw [target_cons] at h
    rw [List.cons_append, target_cons]
    split at h
    · next hbrace => exact (if_pos hbrace).trans (pattern h)
    next hbrace =>
    rw [if_neg hbrace]
    split at h
    · next hbracket => exact (if_pos hbracket).trans (pattern h)
    next hbracket =>
    rw [if_neg hbracket]
    split at h
    · next hname =>
      cases h
      exact if_pos hname
    · cases h

/-- An entry and its default value are read in the same way whatever follows. -/
theorem TargetsStop.afterEntry (ih : TargetsStop steps steps' more) {closer : String} {t : Token}
    (hsteps : 2 * (t :: ts).length < steps) (hsteps' : 2 * (t :: ts ++ more).length < steps')
    (h : afterDefaultValue closer (Script.entry steps closer t ts).2 ≠ []) :
    (Script.entry steps' closer t (ts ++ more)).1 = (Script.entry steps closer t ts).1 ∧
      afterDefaultValue closer (Script.entry steps' closer t (ts ++ more)).2 =
        afterDefaultValue closer (Script.entry steps closer t ts).2 ++ more := by
  have hentry : (Script.entry steps closer t ts).2 ≠ [] := by
    intro hnil
    rw [hnil] at h
    exact h rfl
  rw [ih.entry hsteps hsteps' hentry]
  exact ⟨rfl, walksForward_afterDefaultValue.append h more⟩

theorem EntriesStop.succ (ihTarget : TargetsStop steps steps' more)
    (ih : EntriesStop steps steps' more) : EntriesStop (steps + 1) (steps' + 1) more := by
  intro closer ts hsteps hsteps' h
  cases ts with
  | nil =>
    rw [entries_nil_rest] at h
    exact absurd rfl h
  | cons t ts =>
    simp only [List.length_cons, List.length_append, List.cons_append] at hsteps hsteps'
    rw [entries_cons] at h
    rw [List.cons_append, entries_cons, entries_cons]
    split at h
    · next hclose => rw [if_pos hclose, if_pos hclose]
    next hclose =>
    rw [if_neg hclose, if_neg hclose]
    split at h
    · next hcomma =>
      rw [if_pos hcomma, if_pos hcomma]
      exact ih closer ts (by omega) (by rw [List.length_append]; omega) h
    next hcomma =>
    rw [if_neg hcomma, if_neg hcomma]
    have hdefault : afterDefaultValue closer (entry steps closer t ts).2 ≠ [] := by
      intro hnil
      simp only [hnil, entries_nil_rest] at h
      exact h rfl
    obtain ⟨hnames, hafter⟩ := ihTarget.afterEntry (by rw [List.length_cons]; omega)
      (by rw [List.cons_append, List.length_cons, List.length_append]; omega) hdefault
    have hle := (afterEntry_suffix steps closer t ts).length_le
    have hrest := ih closer (afterDefaultValue closer (entry steps closer t ts).2)
      (by omega) (by rw [List.length_append]; omega) h
    simp only [hnames, hafter, hrest]

/-- Targets and entries that leave tokens are read in the same way whatever follows. -/
theorem pattern_append (more : List Token) (steps steps' : Nat) :
    TargetsStop steps steps' more ∧ EntriesStop steps steps' more := by
  -- A target gives its entries one step less, and so do the entries what stands in them.
  induction steps generalizing steps' with
  | zero =>
    exact ⟨fun _ _ _ h => absurd h (Nat.not_lt_zero _), fun _ _ h => absurd h (Nat.not_lt_zero _)⟩
  | succ steps ih =>
    cases steps' with
    | zero =>
      exact ⟨fun _ _ _ _ h => absurd h (Nat.not_lt_zero _),
        fun _ _ _ h => absurd h (Nat.not_lt_zero _)⟩
    | succ steps' => exact ⟨(ih steps').2.targetsStop, (ih steps').2.succ (ih steps').1⟩

end Pattern

/-! ## Variable statements -/

/-- The tokens after the declarators of a variable statement, read from after its keyword; none
when they are read to the end. -/
def afterDeclarators : Nat → List Token → List Token
  | 0, _ => []
  | steps + 1, ts =>
    match target? (2 * ts.length + 1) ts with
    | none => ts
    | some (_, rest) =>
      match afterDeclarator rest with
      | comma :: rest => if comma.isMark "," then afterDeclarators steps rest else comma :: rest
      | [] => []

theorem target_append {names more : List Token} (hrest : rest ≠ [])
    (h : target? (2 * ts.length + 1) ts = some (names, rest)) :
    target? (2 * (ts ++ more).length + 1) (ts ++ more) = some (names, rest ++ more) :=
  (pattern_append more _ _).1 ts names rest (Nat.lt_succ_self _) (Nat.lt_succ_self _) h hrest

theorem target_eq_none_append {more : List Token} (hts : ts ≠ [])
    (h : target? (2 * ts.length + 1) ts = none) :
    target? (2 * (ts ++ more).length + 1) (ts ++ more) = none := by
  cases ts with
  | nil => exact absurd rfl hts
  | cons t ts => exact target_eq_none h

theorem declaratorNames_append {more : List Token} {steps steps' : Nat}
    (hsteps : ts.length < steps) (hsteps' : (ts ++ more).length < steps')
    (h : afterDeclarators steps ts ≠ []) :
    declaratorNames steps' (ts ++ more) = declaratorNames steps ts := by
  induction steps generalizing ts steps' with
  | zero => exact absurd hsteps (Nat.not_lt_zero _)
  | succ steps ih =>
    obtain ⟨steps', rfl⟩ := Nat.exists_eq_succ_of_ne_zero (Nat.ne_zero_of_lt hsteps')
    rw [declaratorNames, declaratorNames]
    rw [afterDeclarators] at h
    cases htarget : target? (2 * ts.length + 1) ts with
    | none =>
      simp only [htarget] at h
      rw [target_eq_none_append h htarget]
    | some split =>
      obtain ⟨names, rest⟩ := split
      simp only [htarget] at h
      have hnext : afterDeclarator rest ≠ [] := by
        intro hnil
        simp only [hnil] at h
        exact h rfl
      have hrest : rest ≠ [] := by
        rintro rfl
        exact hnext walksForward_afterDeclarator.nil
      have happend := walksForward_afterDeclarator.append hnext more
      simp only [target_append hrest htarget, happend]
      have hle := (target_suffix htarget).length_le
      have hafter := (walksForward_afterDeclarator.suffix rest).length_le
      cases hcomma : afterDeclarator rest with
      | nil => exact absurd hcomma hnext
      | cons comma after =>
        rw [hcomma, List.length_cons] at hafter
        simp only [hcomma] at h
        rw [List.length_append] at hsteps'
        simp only [List.cons_append]
        split
        · next hmark =>
          rw [if_pos hmark] at h
          rw [ih (by omega) (by rw [List.length_append]; omega) h]
        · rfl

/-! ## Signatures and aliases -/

def afterTypeParameters (ts : List Token) : List Token :=
  match ts with
  | t :: _ => if t.isOperator "<" then afterAngles 0 ts else ts
  | [] => []

theorem walksForward_afterTypeParameters : WalksForward afterTypeParameters where
  suffix ts := by
    unfold afterTypeParameters
    split
    · split
      · exact walksForward_afterAngles.suffix _
      · exact List.suffix_rfl
    · exact List.suffix_rfl
  append {ts} h more := by
    cases ts with
    | nil => exact absurd rfl h
    | cons t ts =>
      simp only [List.cons_append, afterTypeParameters] at h ⊢
      split at h
      · next hopen =>
        rw [if_pos hopen, if_pos hopen, ← walksForward_afterAngles.append h, List.cons_append]
      · next hopen => rw [if_neg hopen, if_neg hopen, List.cons_append]

theorem definesAlias_eq (ts : List Token) :
    definesAlias ts = (afterTypeParameters ts).head?.any (·.isOperator "=") := rfl

theorem definesAlias_append (h : afterTypeParameters ts ≠ []) (more : List Token) :
    definesAlias (ts ++ more) = definesAlias ts := by
  rw [definesAlias_eq, definesAlias_eq, walksForward_afterTypeParameters.append h]
  obtain ⟨t, us, hus⟩ := List.exists_cons_of_ne_nil h
  rw [hus]
  rfl

end SymbolAtlas.Script
