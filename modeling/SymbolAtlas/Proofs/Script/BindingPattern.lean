import SymbolAtlas.Proofs.Declaration
import SymbolAtlas.Proofs.Script.Balance
import SymbolAtlas.Proofs.Script.IndependentStatements

/-! # Binding patterns

The object and array patterns of variable statements as a syntax of their own, however nested,
with the tokens that write them and the names that they bind. The reader of patterns, which knows
no syntax and walks over tokens, finds exactly these names: no key, no default value and no
computed key is taken for a name, and none is missed.
-/

namespace SymbolAtlas.Script

open Token

/-! ## Syntax -/

inductive Shape where
  | object
  | array
  deriving DecidableEq, Repr

namespace Shape

def opener : Shape → String
  | object => "\x7b"
  | array => "["

def closer : Shape → String
  | object => "\x7d"
  | array => "]"

end Shape

/-- A default value: an equals sign at `equals` and balanced tokens without a comma outside their
brackets. -/
structure DefaultValue where
  equals : Position
  value : List Token
  balanced : isBalanced [","] 0 value = true

def defaultTokens : Option DefaultValue → List Token
  | none => []
  | some d => .plain .operator d.equals "=" :: d.value

/-- What stands before the colon of a property: a name, a reserved word, a string or a number; or
balanced tokens in square brackets. -/
inductive PropertyKey where
  | literal (kind : Kind) (p : Position) (s : String)
      (isLiteral : kind ∈ [.identifier, .keyword, .string, .numeric])
  | computed (opened : Position) (inner : List Token) (closed : Position)
      (balanced : isBalanced [] 0 inner = true)

def PropertyKey.tokens : PropertyKey → List Token
  | literal kind p s _ => [.plain kind p s]
  | computed opened inner closed _ =>
    .plain .punctuation opened "[" :: (inner ++ [.plain .punctuation closed "]"])

mutual

/-- What is bound: a name, or what the entries of a pattern bind. -/
inductive BindingTarget where
  | name (p : Position) (s : String)
  | pattern (shape : Shape) (opened : Position) (entries : PatternEntries shape)

/-- The entries of a pattern, with commas between them and maybe after the last. An array may have
holes. -/
inductive PatternEntries : Shape → Type where
  | closed {shape : Shape} (p : Position) : PatternEntries shape
  | last {shape : Shape} (entry : PatternEntry shape) (closed : Position) : PatternEntries shape
  | more {shape : Shape} (entry : PatternEntry shape) (comma : Position)
      (next : PatternEntries shape) : PatternEntries shape
  | hole (comma : Position) (next : PatternEntries .array) : PatternEntries .array

inductive PatternEntry : Shape → Type where
  | shorthand (p : Position) (s : String) (default? : Option DefaultValue) : PatternEntry .object
  | keyed (key : PropertyKey) (colon : Position) (target : BindingTarget)
      (default? : Option DefaultValue) : PatternEntry .object
  | element (target : BindingTarget) (default? : Option DefaultValue) : PatternEntry .array
  | rest {shape : Shape} (dots : Position) (target : BindingTarget) : PatternEntry shape

end

mutual

def BindingTarget.tokens : BindingTarget → List Token
  | .name p s => [.plain .identifier p s]
  | .pattern shape opened es => .plain .punctuation opened shape.opener :: es.tokens

/-- The tokens of the entries of a pattern and of the bracket that closes it. -/
def PatternEntries.tokens : {shape : Shape} → PatternEntries shape → List Token
  | shape, .closed p => [.plain .punctuation p shape.closer]
  | shape, .last e p => e.tokens ++ [.plain .punctuation p shape.closer]
  | _, .more e comma next => e.tokens ++ .plain .punctuation comma "," :: next.tokens
  | _, .hole comma next => .plain .punctuation comma "," :: next.tokens

def PatternEntry.tokens : {shape : Shape} → PatternEntry shape → List Token
  | _, .shorthand p s d => .plain .identifier p s :: defaultTokens d
  | _, .keyed key colon target d =>
    key.tokens ++ .plain .punctuation colon ":" :: (target.tokens ++ defaultTokens d)
  | _, .element target d => target.tokens ++ defaultTokens d
  | _, .rest dots target => .plain .punctuation dots "..." :: target.tokens

end

mutual

def BindingTarget.names : BindingTarget → List Token
  | .name p s => [.plain .identifier p s]
  | .pattern _ _ es => es.names

def PatternEntries.names : {shape : Shape} → PatternEntries shape → List Token
  | _, .closed _ => []
  | _, .last e _ => e.names
  | _, .more e _ next => e.names ++ next.names
  | _, .hole _ next => next.names

/-- The names that an entry binds: neither its key nor anything of its default value. -/
def PatternEntry.names : {shape : Shape} → PatternEntry shape → List Token
  | _, .shorthand p s _ => [.plain .identifier p s]
  | _, .keyed _ _ target _ => target.names
  | _, .element target _ => target.names
  | _, .rest _ target => target.names

end

/-! ## Reading an entry -/

def EndsEntry (shape : Shape) (ts : List Token) : Prop :=
  ∃ p s us, ts = .plain .punctuation p s :: us ∧ (s = "," ∨ s = shape.closer)

theorem closer_cases (shape : Shape) : shape.closer = "\x7d" ∨ shape.closer = "]" := by
  cases shape
  · exact .inl rfl
  · exact .inr rfl

theorem afterDefaultValue_append {shape : Shape} (d : Option DefaultValue) {rest : List Token}
    (hrest : EndsEntry shape rest) :
    afterDefaultValue shape.closer (defaultTokens d ++ rest) = rest := by
  obtain ⟨p, s, us, rfl, hs⟩ := hrest
  cases d with
  | none => simp [defaultTokens, afterDefaultValue]
  | some d =>
    have hstop : fromStop [",", shape.closer] 0 (d.value ++ .plain .punctuation p s :: us) =
        .plain .punctuation p s :: us := by
      rw [fromStop_append (closer_cases shape) d.balanced, fromStop_cons, if_pos]
      rcases hs with rfl | rfl <;> simp [text]
    simp [defaultTokens, afterDefaultValue, hstop]

/-- A target is read off its tokens, whatever follows, in enough steps. -/
def ReadsTarget (target : BindingTarget) : Prop :=
  ∀ steps rest, 2 * target.tokens.length ≤ steps →
    target? steps (target.tokens ++ rest) = some (target.names, rest)

/-- The entries of a pattern are read off their tokens up to the bracket that closes it. -/
def ReadsEntries {shape : Shape} (es : PatternEntries shape) : Prop :=
  ∀ steps rest, 2 * es.tokens.length ≤ steps →
    entries steps shape.closer (es.tokens ++ rest) = (es.names, rest)

def ReadsEntry {shape : Shape} (e : PatternEntry shape) : Prop :=
  ∀ steps rest, 2 * e.tokens.length ≤ steps → EndsEntry shape rest →
    entries (steps + 1) shape.closer (e.tokens ++ rest) =
      (e.names ++ (entries steps shape.closer rest).1, (entries steps shape.closer rest).2)

section Entry

variable {shape : Shape} {steps : Nat} {t : Token} {ts rest names : List Token}

/-- An entry ends before its default value. -/
theorem entries_of_entry {d : Option DefaultValue}
    (hhead : ∀ s ∈ [",", shape.closer], t.isMark s = false)
    (hentry : entry steps shape.closer t ts = (names, defaultTokens d ++ rest))
    (hrest : EndsEntry shape rest) :
    entries (steps + 1) shape.closer (t :: ts) =
      (names ++ (entries steps shape.closer rest).1, (entries steps shape.closer rest).2) := by
  have hclose := hhead shape.closer (by simp)
  have hcomma := hhead "," (by simp)
  rw [entries_cons, hclose, hcomma, hentry]
  simp only [Bool.false_eq_true, if_false, afterDefaultValue_append d hrest]

theorem closer_ne {s : String} (h : s ∉ ["\x7d", "]"]) : s ≠ shape.closer := by
  rintro rfl
  rcases closer_cases shape with hclose | hclose <;> simp [hclose] at h

theorem PropertyKey.ne_punctuation {kind : Kind}
    (h : kind ∈ [.identifier, .keyword, .string, .numeric]) : kind ≠ .punctuation := by
  rintro rfl
  exact absurd h (by decide)

/-- A key begins with no mark but a square bracket. -/
theorem PropertyKey.exists_cons (key : PropertyKey) :
    ∃ t ts, key.tokens = t :: ts ∧ ∀ s, s ≠ "[" → t.isMark s = false := by
  cases key with
  | literal kind p s isLiteral =>
    exact ⟨_, [], rfl, fun s' _ => by simp [PropertyKey.ne_punctuation isLiteral]⟩
  | computed opened inner closed balanced =>
    refine ⟨_, _, rfl, fun s hs => ?_⟩
    simpa using hs.symm

theorem PropertyKey.afterKey_append (key : PropertyKey) (rest : List Token) :
    afterKey (key.tokens ++ rest) = rest := by
  cases key with
  | literal kind p s isLiteral =>
    simp [PropertyKey.tokens, afterKey, PropertyKey.ne_punctuation isLiteral]
  | computed opened inner closed balanced =>
    have hafter : afterClosed (inner ++ .plain .punctuation closed "]" :: rest) = rest :=
      afterClosed_append balanced rfl
    simp [PropertyKey.tokens, afterKey, hafter]

/-- A target begins with a name or with the bracket that opens a pattern. -/
theorem BindingTarget.exists_cons (target : BindingTarget) :
    ∃ t ts, target.tokens = t :: ts ∧ ∀ s, s ≠ "\x7b" → s ≠ "[" → t.isMark s = false := by
  cases target with
  | name p s => exact ⟨_, [], by rw [BindingTarget.tokens], fun s' _ _ => by simp⟩
  | pattern shape opened es =>
    refine ⟨_, es.tokens, by rw [BindingTarget.tokens], fun s hbrace hbracket => ?_⟩
    cases shape
    · simpa [Shape.opener] using hbrace.symm
    · simpa [Shape.opener] using hbracket.symm

theorem readsEntry_shorthand (p : Position) (s : String) (d : Option DefaultValue) :
    ReadsEntry (.shorthand p s d) := by
  intro steps rest _ hrest
  -- What follows the name is an equals sign, a comma or a bracket, so the name is no key.
  obtain ⟨u, us, hus, hcolon⟩ :
      ∃ u us, defaultTokens d ++ rest = u :: us ∧ u.isMark ":" = false := by
    cases d with
    | none =>
      obtain ⟨q, s', us, rfl, hs⟩ := hrest
      refine ⟨_, us, rfl, ?_⟩
      rcases hs with rfl | rfl <;> simp [Shape.closer]
    | some d => exact ⟨_, _, rfl, rfl⟩
  rw [PatternEntry.tokens, PatternEntry.names, List.cons_append]
  apply entries_of_entry (d := d) _ _ hrest
  · simp
  · have hkey : afterKey (.plain .identifier p s :: (defaultTokens d ++ rest)) = u :: us := by
      simp [afterKey, hus]
    rw [entry, hkey, hus]
    simp [keyedTarget, hcolon, Shape.closer]

theorem readsEntry_keyed (key : PropertyKey) (colon : Position) {target : BindingTarget}
    (d : Option DefaultValue) (h : ReadsTarget target) :
    ReadsEntry (.keyed key colon target d) := by
  intro steps rest hsteps hrest
  obtain ⟨t, ts, hkey, hhead⟩ := key.exists_cons
  have htokens : (PatternEntry.keyed key colon target d).tokens ++ rest =
      t :: (ts ++
        .plain .punctuation colon ":" :: (target.tokens ++ (defaultTokens d ++ rest))) := by
    rw [PatternEntry.tokens, hkey]
    simp
  have hafter : afterKey (t :: (ts ++ .plain .punctuation colon ":" ::
      (target.tokens ++ (defaultTokens d ++ rest)))) = .plain .punctuation colon ":" ::
        (target.tokens ++ (defaultTokens d ++ rest)) := by
    rw [← List.cons_append, ← hkey, key.afterKey_append]
  have htarget : target? steps (target.tokens ++ (defaultTokens d ++ rest)) =
      some (target.names, defaultTokens d ++ rest) := by
    apply h
    rw [PatternEntry.tokens] at hsteps
    simp only [List.length_append, List.length_cons] at hsteps
    omega
  rw [htokens, PatternEntry.names]
  apply entries_of_entry (d := d) _ _ hrest
  · simp [hhead, Shape.closer]
  · rw [entry, hafter]
    simp [hhead, keyedTarget, htarget, Shape.closer]

theorem readsEntry_element {target : BindingTarget} (d : Option DefaultValue)
    (h : ReadsTarget target) : ReadsEntry (.element target d) := by
  intro steps rest hsteps hrest
  obtain ⟨t, ts, htarget, hhead⟩ := target.exists_cons
  have hread : target? steps (t :: (ts ++ (defaultTokens d ++ rest))) =
      some (target.names, defaultTokens d ++ rest) := by
    rw [← List.cons_append, ← htarget]
    apply h
    rw [PatternEntry.tokens, List.length_append] at hsteps
    omega
  have htokens : (PatternEntry.element target d).tokens ++ rest =
      t :: (ts ++ (defaultTokens d ++ rest)) := by
    rw [PatternEntry.tokens, htarget]
    simp
  rw [htokens, PatternEntry.names]
  apply entries_of_entry (d := d) _ _ hrest
  · simp [hhead, Shape.closer]
  · simp [entry, hhead, hread, Shape.closer]

theorem readsEntry_rest (dots : Position) {target : BindingTarget} (h : ReadsTarget target) :
    ReadsEntry (.rest dots target : PatternEntry shape) := by
  intro steps rest hsteps hrest
  have hread : target? steps (target.tokens ++ rest) = some (target.names, rest) := by
    apply h
    rw [PatternEntry.tokens, List.length_cons] at hsteps
    omega
  rw [PatternEntry.tokens, PatternEntry.names, List.cons_append]
  apply entries_of_entry (d := none) _ _ hrest
  · have hclose : "..." ≠ shape.closer := closer_ne (by decide)
    simpa using hclose
  · simp [entry, hread, defaultTokens]

end Entry

/-! ## Reading a pattern -/

theorem endsEntry_closer (shape : Shape) (p : Position) (rest : List Token) :
    EndsEntry shape (.plain .punctuation p shape.closer :: rest) :=
  ⟨p, _, rest, rfl, .inr rfl⟩

theorem endsEntry_comma (shape : Shape) (p : Position) (rest : List Token) :
    EndsEntry shape (.plain .punctuation p "," :: rest) :=
  ⟨p, _, rest, rfl, .inl rfl⟩

theorem entries_closer (shape : Shape) (steps : Nat) (p : Position) (rest : List Token) :
    entries (steps + 1) shape.closer (.plain .punctuation p shape.closer :: rest) = ([], rest) := by
  rw [entries_cons]
  simp

theorem entries_comma (shape : Shape) (steps : Nat) (p : Position) (rest : List Token) :
    entries (steps + 1) shape.closer (.plain .punctuation p "," :: rest) =
      entries steps shape.closer rest := by
  have hclose : "," ≠ shape.closer := closer_ne (by decide)
  rw [entries_cons]
  simp [hclose]

mutual

theorem BindingTarget.reads : (target : BindingTarget) → ReadsTarget target
  | .name p s => by
    intro steps rest hsteps
    rw [BindingTarget.tokens] at hsteps ⊢
    obtain ⟨steps, rfl⟩ := Nat.exists_eq_succ_of_ne_zero (show steps ≠ 0 by
      rw [List.length_singleton] at hsteps
      omega)
    rw [BindingTarget.names, List.singleton_append, target_cons]
    simp
  | .pattern shape opened es => by
    intro steps rest hsteps
    rw [BindingTarget.tokens, List.length_cons] at hsteps
    obtain ⟨steps, rfl⟩ := Nat.exists_eq_succ_of_ne_zero (show steps ≠ 0 by omega)
    have hentries := es.reads steps rest (by omega)
    rw [BindingTarget.tokens, BindingTarget.names, List.cons_append, target_cons]
    cases shape <;> simp only [Shape.closer] at hentries <;> simp [Shape.opener, hentries]

theorem PatternEntries.reads : {shape : Shape} → (es : PatternEntries shape) → ReadsEntries es
  | shape, .closed p => by
    intro steps rest hsteps
    rw [PatternEntries.tokens, List.length_singleton] at hsteps
    obtain ⟨steps, rfl⟩ := Nat.exists_eq_succ_of_ne_zero (show steps ≠ 0 by omega)
    rw [PatternEntries.tokens, PatternEntries.names, List.singleton_append, entries_closer]
  | shape, .last e p => by
    intro steps rest hsteps
    rw [PatternEntries.tokens, List.length_append, List.length_singleton] at hsteps
    obtain ⟨steps, rfl⟩ := Nat.exists_eq_succ_of_ne_zero (show steps ≠ 0 by omega)
    have hentry := e.reads steps _ (by omega) (endsEntry_closer shape p rest)
    obtain ⟨steps, rfl⟩ := Nat.exists_eq_succ_of_ne_zero (show steps ≠ 0 by omega)
    rw [PatternEntries.tokens, PatternEntries.names, List.append_assoc, List.singleton_append,
      hentry, entries_closer, List.append_nil]
  | shape, .more e comma next => by
    intro steps rest hsteps
    rw [PatternEntries.tokens, List.length_append, List.length_cons] at hsteps
    obtain ⟨steps, rfl⟩ := Nat.exists_eq_succ_of_ne_zero (show steps ≠ 0 by omega)
    have hentry := e.reads steps _ (by omega) (endsEntry_comma shape comma (next.tokens ++ rest))
    obtain ⟨steps, rfl⟩ := Nat.exists_eq_succ_of_ne_zero (show steps ≠ 0 by omega)
    rw [PatternEntries.tokens, PatternEntries.names, List.append_assoc, List.cons_append,
      hentry, entries_comma, next.reads steps rest (by omega)]
  | _, .hole comma next => by
    intro steps rest hsteps
    rw [PatternEntries.tokens, List.length_cons] at hsteps
    obtain ⟨steps, rfl⟩ := Nat.exists_eq_succ_of_ne_zero (show steps ≠ 0 by omega)
    rw [PatternEntries.tokens, PatternEntries.names, List.cons_append, entries_comma,
      next.reads steps rest (by omega)]

theorem PatternEntry.reads : {shape : Shape} → (e : PatternEntry shape) → ReadsEntry e
  | _, .shorthand p s d => readsEntry_shorthand p s d
  | _, .keyed key colon target d => readsEntry_keyed key colon d target.reads
  | _, .element target d => readsEntry_element d target.reads
  | _, .rest dots target => readsEntry_rest dots target.reads

end

/-! ## Patterns are balanced -/

theorem isBalanced_other {depth : Nat} {t : Token} {ts : List Token} (hopen : t.isOpener = false)
    (hclose : t.isCloser = false) : isBalanced [] depth (t :: ts) = isBalanced [] depth ts := by
  simp [isBalanced, bracketDepth, hopen, hclose]

theorem isBalanced_identifier (p : Position) (s : String) (ts : List Token) :
    isBalanced [] 0 (.plain .identifier p s :: ts) = isBalanced [] 0 ts :=
  isBalanced_other (by simp) (by simp)

theorem isBalanced_defaultTokens (d : Option DefaultValue) :
    isBalanced [] 0 (defaultTokens d) = true := by
  cases d with
  | none => rfl
  | some d =>
    rw [defaultTokens, isBalanced_other (by simp) (by simp)]
    exact isBalanced_weaken d.balanced

theorem PropertyKey.isBalanced_tokens (key : PropertyKey) : isBalanced [] 0 key.tokens = true := by
  cases key with
  | literal kind p s isLiteral =>
    have hkind := PropertyKey.ne_punctuation isLiteral
    rw [PropertyKey.tokens, isBalanced_other (by simp [hkind]) (by simp [hkind])]
    rfl
  | computed opened inner closed balanced =>
    exact isBalanced_bracketed rfl rfl (by simp) balanced

mutual

theorem BindingTarget.isBalanced_tokens :
    (target : BindingTarget) → isBalanced [] 0 target.tokens = true
  | .name p s => by
    rw [BindingTarget.tokens, isBalanced_identifier]
    rfl
  | .pattern shape opened es => by
    obtain ⟨inner, closed, htokens, hinner⟩ := es.exists_inner
    rw [BindingTarget.tokens, htokens]
    exact isBalanced_bracketed (by cases shape <;> simp [Shape.opener])
      (by cases shape <;> simp [Shape.closer]) (by simp) hinner

/-- The bracket that closes a pattern stands after balanced tokens. -/
theorem PatternEntries.exists_inner : {shape : Shape} → (es : PatternEntries shape) →
    ∃ inner p, es.tokens = inner ++ [.plain .punctuation p shape.closer] ∧
      isBalanced [] 0 inner = true
  | _, .closed p => ⟨[], p, by rw [PatternEntries.tokens, List.nil_append], rfl⟩
  | _, .last e p => ⟨e.tokens, p, by rw [PatternEntries.tokens], e.isBalanced_tokens⟩
  | _, .more e comma next => by
    obtain ⟨inner, p, htokens, hinner⟩ := next.exists_inner
    refine ⟨e.tokens ++ .plain .punctuation comma "," :: inner, p, ?_, ?_⟩
    · rw [PatternEntries.tokens, htokens, List.append_assoc, List.cons_append]
    · apply isBalanced_append e.isBalanced_tokens
      rw [isBalanced_other (by simp) (by simp)]
      exact hinner
  | _, .hole comma next => by
    obtain ⟨inner, p, htokens, hinner⟩ := next.exists_inner
    refine ⟨.plain .punctuation comma "," :: inner, p, ?_, ?_⟩
    · rw [PatternEntries.tokens, htokens, List.cons_append]
    · rw [isBalanced_other (by simp) (by simp)]
      exact hinner

theorem PatternEntry.isBalanced_tokens : {shape : Shape} → (e : PatternEntry shape) →
    isBalanced [] 0 e.tokens = true
  | _, .shorthand p s d => by
    rw [PatternEntry.tokens, isBalanced_identifier]
    exact isBalanced_defaultTokens d
  | _, .keyed key colon target d => by
    rw [PatternEntry.tokens]
    apply isBalanced_append key.isBalanced_tokens
    rw [isBalanced_other (by simp) (by simp)]
    exact isBalanced_append target.isBalanced_tokens (isBalanced_defaultTokens d)
  | _, .element target d => by
    rw [PatternEntry.tokens]
    exact isBalanced_append target.isBalanced_tokens (isBalanced_defaultTokens d)
  | _, .rest dots target => by
    rw [PatternEntry.tokens, isBalanced_other (by simp) (by simp)]
    exact target.isBalanced_tokens

end

/-! ## Declarations of a pattern -/

mutual

theorem BindingTarget.isIdentifier_of_mem {t : Token} :
    (target : BindingTarget) → t ∈ target.names → t.hasKind .identifier = true
  | .name p s, h => by
    rw [BindingTarget.names, List.mem_singleton] at h
    rw [h, hasKind_plain]
    rfl
  | .pattern _ _ es, h => es.isIdentifier_of_mem (by rwa [BindingTarget.names] at h)

theorem PatternEntries.isIdentifier_of_mem {t : Token} : {shape : Shape} →
    (es : PatternEntries shape) → t ∈ es.names → t.hasKind .identifier = true
  | _, .closed _, h => by
    rw [PatternEntries.names] at h
    cases h
  | _, .last e _, h => e.isIdentifier_of_mem (by rwa [PatternEntries.names] at h)
  | _, .more e _ next, h => by
    rw [PatternEntries.names, List.mem_append] at h
    exact h.elim e.isIdentifier_of_mem next.isIdentifier_of_mem
  | _, .hole _ next, h => next.isIdentifier_of_mem (by rwa [PatternEntries.names] at h)

theorem PatternEntry.isIdentifier_of_mem {t : Token} : {shape : Shape} →
    (e : PatternEntry shape) → t ∈ e.names → t.hasKind .identifier = true
  | _, .shorthand p s _, h => by
    rw [PatternEntry.names, List.mem_singleton] at h
    rw [h, hasKind_plain]
    rfl
  | _, .keyed _ _ target _, h => target.isIdentifier_of_mem (by rwa [PatternEntry.names] at h)
  | _, .element target _, h => target.isIdentifier_of_mem (by rwa [PatternEntry.names] at h)
  | _, .rest _ target, h => target.isIdentifier_of_mem (by rwa [PatternEntry.names] at h)

end

/-- The tokens of `= value;` after a target. -/
def nameValue (equals start stop : Position) (value : String) : List Token :=
  [.plain .operator equals "=", .plain .identifier start value, .plain .punctuation stop ";"]

section Statement

variable {keyword : String} {shape : Shape} (place opened equals start stop : Position)
  (value : String)

theorem afterDeclarator_nameValue :
    afterDeclarator (nameValue equals start stop value) = [.plain .punctuation stop ";"] := by
  have hread : afterInitializer none 0 0 ([.plain .identifier start value] ++
      .plain .punctuation stop ";" :: []) = [.plain .punctuation stop ";"] :=
    afterInitializer_of_not_endsEarly (by simp [isBalanced, bracketDepth]) (by simp)
      (.inr (by simp)) rfl
  rw [List.singleton_append] at hread
  simp [afterDeclarator, nameValue, hread]

theorem variableNames_target (target : BindingTarget) :
    variableNames (target.tokens ++ nameValue equals start stop value) = target.names := by
  have hread := target.reads (2 * (target.tokens ++ nameValue equals start stop value).length + 1)
    (nameValue equals start stop value) (by rw [List.length_append]; omega)
  rw [variableNames, declaratorNames]
  simp only [hread, afterDeclarator_nameValue]
  simp

/-- Before a semicolon alone no word declares anything. -/
theorem declarationsAt_semicolon (before : List Token) (t : Token) (p : Position) :
    declarationsAt before t [.plain .punctuation p ";"] = [] := by
  have hnames : variableNames [.plain .punctuation p ";"] = [] := by
    simp [variableNames, declaratorNames, target_cons]
  have hname : isDeclarable (.plain .punctuation p ";") = false := by simp [isDeclarable]
  unfold declarationsAt
  split <;> simp [hnames, hname, functionDeclaration, namedDeclaration]

theorem topLevelFrom_nameValue (before : List Token) :
    topLevelFrom before 0 (nameValue equals start stop value) = [] := by
  simp [nameValue, topLevelFrom, declarationsAt_semicolon]

/-- What a variable statement with a pattern declares, in the order of its tokens. -/
theorem topLevelFrom_pattern (hkeyword : keyword ∈ ["const", "let", "var"])
    (es : PatternEntries shape) :
    topLevelFrom [] 0 (.plain .keyword place keyword ::
        ((BindingTarget.pattern shape opened es).tokens ++ nameValue equals start stop value)) =
      (es.names.filter isDeclarable).map fun t => declarationOf .value t keyword false := by
  have hnames : variableNames ((BindingTarget.pattern shape opened es).tokens ++
      nameValue equals start stop value) = es.names := by
    rw [variableNames_target, BindingTarget.names]
  obtain ⟨inner, closed, htokens, hinner⟩ := es.exists_inner
  have hopener : (Token.plain .punctuation opened shape.opener).isOpener = true := by
    cases shape <;> simp [Shape.opener]
  have hcloser : (Token.plain .punctuation closed shape.closer).isCloser = true := by
    cases shape <;> simp [Shape.closer]
  have hbracketed := topLevelFrom_bracketed hopener hcloser hinner
    [.plain .keyword place keyword] (nameValue equals start stop value)
  rw [topLevelFrom_nameValue] at hbracketed
  have hpattern : topLevelFrom [.plain .keyword place keyword] 0
      ((BindingTarget.pattern shape opened es).tokens ++ nameValue equals start stop value) =
        [] := by
    rw [BindingTarget.tokens, htokens, List.cons_append, List.append_assoc, List.singleton_append,
      hbracketed]
  have hdepth : bracketDepth 0 (.plain .keyword place keyword) = 0 := by simp [bracketDepth]
  have hfound := declarationsAt_variable (t := .plain .keyword place keyword) hkeyword []
    ((BindingTarget.pattern shape opened es).tokens ++ nameValue equals start stop value)
  rw [hnames, BindingTarget.tokens, List.cons_append, List.head?_cons, Option.any_some] at hfound
  rw [topLevelFrom_cons, hdepth, hpattern, List.append_nil, BindingTarget.tokens, List.cons_append,
    hfound]
  simp [isExportedAfter, text]

end Statement

theorem isDeclarable_of_mem {shape : Shape} {es : PatternEntries shape} {t : Token}
    (h : t ∈ es.names) : isDeclarable t = !Vocabulary.isBuiltin t.text := by
  rw [isDeclarable, es.isIdentifier_of_mem h, Bool.true_and]

/-- A `const`, `let` or `var` statement with a pattern declares the names that the pattern binds,
each where it is written and in this order, but for built-in names, and nothing else. -/
theorem declarations_pattern {keyword : String} (hkeyword : keyword ∈ ["const", "let", "var"])
    {shape : Shape} (es : PatternEntries shape) (hdistinct : (es.names.map Token.text).Nodup)
    (place opened equals start stop : Position) (value : String) :
    declarations (.plain .keyword place keyword ::
        ((BindingTarget.pattern shape opened es).tokens ++ nameValue equals start stop value)) =
      (es.names.filter fun t => !Vocabulary.isBuiltin t.text).map fun t =>
        ⟨.value, t.text, t.position, keyword, false⟩ := by
  have hfilter : es.names.filter isDeclarable =
      es.names.filter fun t => !Vocabulary.isBuiltin t.text :=
    List.filter_congr fun t ht => isDeclarable_of_mem ht
  have hnodup : ((([] : Declarations) ++ (es.names.filter isDeclarable).map fun t =>
      declarationOf .value t keyword false).map Declaration.name).Nodup := by
    rw [List.nil_append, List.map_map]
    exact hdistinct.sublist ((List.filter_sublist).map Token.text)
  rw [declarations, topLevelFrom_pattern _ _ _ _ _ _ hkeyword,
    Declarations.insertAll_of_nodup hnodup, List.nil_append, hfilter]
  rfl

/-- The names `a`, `b`, `d` and `r` are declared; the built-in `Map`, the keys `'k'` and `[x + y]`
and the default `f(1, {c})` are not. -/
theorem declarations_pattern_nested :
    ∃ es : PatternEntries .object,
      tokenize
          "let \x7ba, 'k': [b = f(1, \x7bc\x7d), , ...\x7bd\x7d], [x + y]: Map, ...r\x7d = e;" =
        .plain .keyword ⟨1, 1⟩ "let" :: ((BindingTarget.pattern .object ⟨1, 5⟩ es).tokens ++
          nameValue ⟨1, 61⟩ ⟨1, 63⟩ ⟨1, 64⟩ "e") ∧
        "let" ∈ ["const", "let", "var"] ∧ (es.names.map Token.text).Nodup ∧
          declarations (tokenize
            "let \x7ba, 'k': [b = f(1, \x7bc\x7d), , ...\x7bd\x7d], [x + y]: Map, ...r\x7d = e;") =
            [⟨.value, "a", ⟨1, 6⟩, "let", false⟩, ⟨.value, "b", ⟨1, 15⟩, "let", false⟩,
              ⟨.value, "d", ⟨1, 36⟩, "let", false⟩, ⟨.value, "r", ⟨1, 58⟩, "let", false⟩] := by
  have hcall : isBalanced [","] 0 [.plain .identifier ⟨1, 19⟩ "f", .plain .punctuation ⟨1, 20⟩ "(",
      .plain .numeric ⟨1, 21⟩ "1", .plain .punctuation ⟨1, 22⟩ ",",
      .plain .punctuation ⟨1, 24⟩ "\x7b", .plain .identifier ⟨1, 25⟩ "c",
      .plain .punctuation ⟨1, 26⟩ "\x7d", .plain .punctuation ⟨1, 27⟩ ")"] = true := by decide
  have hsum : isBalanced [] 0 [.plain .identifier ⟨1, 42⟩ "x", .plain .operator ⟨1, 44⟩ "+",
      .plain .identifier ⟨1, 46⟩ "y"] = true := by decide
  let inArray : PatternEntries .array :=
    .more (.element (.name ⟨1, 15⟩ "b") (some ⟨⟨1, 17⟩, _, hcall⟩)) ⟨1, 28⟩
      (.hole ⟨1, 30⟩ (.last (.rest ⟨1, 32⟩ (.pattern .object ⟨1, 35⟩
        (.last (.shorthand ⟨1, 36⟩ "d" none) ⟨1, 37⟩))) ⟨1, 38⟩))
  let es : PatternEntries .object :=
    .more (.shorthand ⟨1, 6⟩ "a" none) ⟨1, 7⟩
      (.more (.keyed (.literal .string ⟨1, 9⟩ "'k'" (by decide)) ⟨1, 12⟩
          (.pattern .array ⟨1, 14⟩ inArray) none) ⟨1, 39⟩
        (.more (.keyed (.computed ⟨1, 41⟩ _ ⟨1, 47⟩ hsum) ⟨1, 48⟩ (.name ⟨1, 50⟩ "Map") none)
          ⟨1, 53⟩ (.last (.rest ⟨1, 55⟩ (.name ⟨1, 58⟩ "r")) ⟨1, 59⟩)))
  have htokens : tokenize
      "let \x7ba, 'k': [b = f(1, \x7bc\x7d), , ...\x7bd\x7d], [x + y]: Map, ...r\x7d = e;" =
      .plain .keyword ⟨1, 1⟩ "let" :: ((BindingTarget.pattern .object ⟨1, 5⟩ es).tokens ++
        nameValue ⟨1, 61⟩ ⟨1, 63⟩ ⟨1, 64⟩ "e") := rfl
  have hnames : es.names.map Token.text = ["a", "b", "d", "Map", "r"] := rfl
  have hdistinct : (es.names.map Token.text).Nodup := by
    rw [hnames]
    decide
  refine ⟨es, htokens, by decide, hdistinct, ?_⟩
  rw [htokens, declarations_pattern (by decide) es hdistinct]
  rfl

end SymbolAtlas.Script
