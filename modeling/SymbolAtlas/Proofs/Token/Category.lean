import SymbolAtlas.Token.Lexeme

/-! # Categories of tokens

Every test of a token is settled by its category and text. The token of a name is tested as a word
whether or not the name is reserved, so the tests of one are settled by its text alone.
-/

namespace SymbolAtlas.Token

variable (k : Kind) (p : Position) (s t : String)

@[simp] theorem hasKind_plain (k' : Kind) :
    (plain k p s).hasKind k' = decide (k = k') := by
  cases k <;> cases k' <;> rfl

@[simp] theorem isWord_plain :
    (plain k p s).isWord = (decide (k = .keyword) || decide (k = .identifier)) := by
  simp [isWord]

@[simp] theorem isWordOf_plain :
    (plain k p s).isWordOf t = ((plain k p s).isWord && s == t) := rfl

@[simp] theorem isMark_plain :
    (plain k p s).isMark t = (decide (k = .punctuation) && s == t) := by
  simp [isMark, is, text]

@[simp] theorem isOperator_plain :
    (plain k p s).isOperator t = (decide (k = .operator) && s == t) := by
  simp [isOperator, is, text]

@[simp] theorem isOpener_plain : (plain k p s).isOpener =
    (decide (k = .punctuation) && ["(", "[", "\x7b"].contains s) := by
  simp [isOpener, text]

@[simp] theorem isCloser_plain : (plain k p s).isCloser =
    (decide (k = .punctuation) && [")", "]", "\x7d"].contains s) := by
  simp [isCloser, text]

/-! ## One category excludes the others -/

section Exclusion

variable {t : Token} {k k' : Kind} {s : String}

theorem eq_of_hasKind (h : t.hasKind k = true) : ∃ p s, t = .plain k p s := by
  cases t with
  | plain _ p s =>
    rw [hasKind_plain, decide_eq_true_eq] at h
    exact ⟨p, s, by rw [h]⟩
  | template p s inside => cases h

/-- A token is known by its category and text. -/
theorem eq_of_is (h : t.is k s = true) : ∃ p, t = .plain k p s := by
  rw [is, Bool.and_eq_true, beq_iff_eq] at h
  obtain ⟨p, _, rfl⟩ := eq_of_hasKind h.1
  exact ⟨p, by rw [← h.2]; rfl⟩

theorem hasKind_of_ne (h : t.hasKind k = true) (hne : k ≠ k') : t.hasKind k' = false := by
  obtain ⟨p, s, rfl⟩ := eq_of_hasKind h
  rw [hasKind_plain, decide_eq_false hne]

theorem isMark_of_hasKind (h : t.hasKind k = true) (hne : k ≠ .punctuation) :
    t.isMark s = false := by
  rw [isMark, is, hasKind_of_ne h hne, Bool.false_and]

theorem isOpener_of_hasKind (h : t.hasKind k = true) (hne : k ≠ .punctuation) :
    t.isOpener = false := by
  rw [isOpener, hasKind_of_ne h hne, Bool.false_and]

theorem isCloser_of_hasKind (h : t.hasKind k = true) (hne : k ≠ .punctuation) :
    t.isCloser = false := by
  rw [isCloser, hasKind_of_ne h hne, Bool.false_and]

theorem isWord_of_hasKind (h : t.hasKind k = true) (hkeyword : k ≠ .keyword)
    (hidentifier : k ≠ .identifier) : t.isWord = false := by
  rw [isWord, hasKind_of_ne h hkeyword, hasKind_of_ne h hidentifier, Bool.or_false]

theorem isMark_of_isOperator {s' : String} (h : t.isOperator s = true) : t.isMark s' = false :=
  isMark_of_hasKind (Bool.and_eq_true_iff.mp h).1 (by decide)

theorem eq_of_isMark (h : t.isMark s = true) : ∃ p, t = .plain .punctuation p s := eq_of_is h

end Exclusion

/-- The token of a name. -/
def nameAt (p : Position) (s : String) : Token := .plain (Lexeme.nameKind s.toList) p s

@[simp] theorem text_nameAt : (nameAt p s).text = s := rfl

@[simp] theorem isWord_nameAt : (nameAt p s).isWord = true := by
  unfold nameAt Lexeme.nameKind
  split <;> rfl

@[simp] theorem isWordOf_nameAt : (nameAt p s).isWordOf t = (s == t) := by
  rw [isWordOf, isWord_nameAt, Bool.true_and]
  rfl

theorem hasKind_nameAt {k : Kind} (hkeyword : k ≠ .keyword) (hidentifier : k ≠ .identifier) :
    (nameAt p s).hasKind k = false := by
  unfold nameAt Lexeme.nameKind
  split
  · simpa using hkeyword.symm
  · simpa using hidentifier.symm

@[simp] theorem hasKind_nameAt_string : (nameAt p s).hasKind .string = false :=
  hasKind_nameAt p s (by decide) (by decide)

@[simp] theorem isMark_nameAt : (nameAt p s).isMark t = false := by
  rw [isMark, is, hasKind_nameAt p s (by decide) (by decide), Bool.false_and]

@[simp] theorem isOperator_nameAt : (nameAt p s).isOperator t = false := by
  rw [isOperator, is, hasKind_nameAt p s (by decide) (by decide), Bool.false_and]

@[simp] theorem isOpener_nameAt : (nameAt p s).isOpener = false := by
  rw [isOpener, hasKind_nameAt p s (by decide) (by decide), Bool.false_and]

@[simp] theorem isCloser_nameAt : (nameAt p s).isCloser = false := by
  rw [isCloser, hasKind_nameAt p s (by decide) (by decide), Bool.false_and]

end SymbolAtlas.Token
