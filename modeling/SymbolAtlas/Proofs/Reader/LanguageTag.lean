import SymbolAtlas.Reader

/-! # The language of an outline

Which reader gets a source is decided by its file extension, or else by the evidence in its text.
A script's outline is then tagged by a second rule with markers of its own. The two rules agree
wherever an extension is known and on every source that is no script; without an extension they
can take one script for two dialects.
-/

namespace SymbolAtlas

namespace Language

/-- The language with the most evidence is chosen, the first of several with equal evidence. -/
theorem ofEvidence?_eq (text : String) :
    ofEvidence? text =
      if max (evidence .python text) (evidence .javascript text) < evidence .typescript text then
        some .typescript
      else if evidence .python text < evidence .javascript text then some .javascript
      else if 0 < evidence .python text then some .python
      else none := by
  simp only [ofEvidence?, all, List.foldl_cons, List.foldl_nil]
  generalize evidence .python text = p
  generalize evidence .javascript text = j
  generalize evidence .typescript text = t
  have hfirst : (if 0 < p then (some python, p) else (none, 0)) =
      (if 0 < p then some python else none, p) := by
    split
    · rfl
    · next hp => rw [Nat.eq_zero_of_not_pos hp]
  rw [hfirst]
  generalize (if 0 < p then some python else none) = best
  dsimp only
  by_cases hj : p < j
  · rw [if_pos hj, if_pos hj, Nat.max_eq_right (Nat.le_of_lt hj)]
    split <;> rfl
  · rw [if_neg hj, if_neg hj, Nat.max_eq_left (Nat.not_lt.mp hj)]
    split <;> rfl

/-- Whether a text shows what counts for TypeScript and not for JavaScript. -/
def showsAnnotations (text : List Char) : Bool :=
  [": string", ": number", ": boolean", "interface "].any (mentions text) ||
    mentions text "type " && mentions text "="

theorem showsAnnotations_iff (text : String) :
    showsAnnotations text.toList = true ↔
      javascript.evidence text < typescript.evidence text := by
  rw [evidence, evidence, javascriptEvidence_lt_typescriptEvidence_iff]
  simp [showsAnnotations, or_assoc]

/-- Evidence that chooses a script chooses its dialect by the annotations in the text. -/
theorem eq_of_ofEvidence? {text : String} {l : Language} (h : ofEvidence? text = some l)
    (hscript : l ≠ .python) :
    l = if showsAnnotations text.toList then .typescript else .javascript := by
  have hshows := showsAnnotations_iff text
  rw [ofEvidence?_eq] at h
  split at h
  · next hmost =>
    cases h
    rw [if_pos (hshows.mpr (Nat.lt_of_le_of_lt (Nat.le_max_right _ _) hmost))]
  split at h
  · next hmost hpython =>
    cases h
    rw [if_neg]
    rw [hshows]
    omega
  split at h
  · cases h
    exact absurd rfl hscript
  · cases h

end Language

namespace Script

theorem dialect_of_extension {filename : Option String} {l : Language} (content : String)
    (h : filename.bind Language.ofPath? = some l) (hscript : l ≠ .python) :
    dialect content filename = l := by
  obtain ⟨path, rfl, hpath⟩ := Option.bind_eq_some_iff.mp h
  have hdialect : dialectOfPath? path = some l := by
    rw [dialectOfPath?, hpath]
    exact if_pos (by simpa using hscript)
  simp only [dialect, Option.bind_some, hdialect]

theorem dialect_of_no_extension {filename : Option String} (content : String)
    (h : filename.bind Language.ofPath? = none) :
    dialect content filename =
      if showsTypes content.toList then .typescript else .javascript := by
  have hdialect : filename.bind dialectOfPath? = none := by
    cases filename with
    | none => rfl
    | some path =>
      rw [Option.bind_some] at h
      rw [Option.bind_some, dialectOfPath?, h]
      rfl
  simp only [dialect, hdialect]

end Script

namespace Reader

/-- The tag of an outline is the language that was chosen, but for scripts: their dialect is told
anew. -/
theorem language_read (content : String) (filename : Option String) :
    (read content filename).1.language =
      (Language.detect? content filename).map fun l =>
        if l = .python then .python else Script.dialect content filename := by
  simp only [read]
  cases Language.detect? content filename with
  | none => rfl
  | some l =>
    cases l with
    | python =>
      simp only [readAs, Python.outline]
      split <;> rfl
    | javascript => rfl
    | typescript => rfl

theorem head?_messages_read (content : String) (filename : Option String) :
    (read content filename).2.head? =
      some ⟨.debug, filename.getD "<source>" ++ ": parsing as " ++
        Language.tag (Language.detect? content filename)⟩ := by
  simp only [read]
  cases Language.detect? content filename <;> rfl

theorem language_read_of_extension {filename : Option String} {l : Language} (content : String)
    (h : filename.bind Language.ofPath? = some l) :
    (read content filename).1.language = Language.detect? content filename := by
  rw [language_read, Language.detect?, h]
  by_cases hscript : l = .python
  · simp [hscript]
  · simp [hscript, Script.dialect_of_extension content h hscript]

theorem language_read_of_evidence {filename : Option String} {content : String} {l : Language}
    (h : filename.bind Language.ofPath? = none) (hl : Language.ofEvidence? content = some l)
    (hscript : l ≠ .python) :
    (read content filename).1.language = Language.detect? content filename ↔
      Script.showsTypes content.toList = Language.showsAnnotations content.toList := by
  rw [language_read, Language.detect?, h, hl, Option.map_some, if_neg hscript,
    Script.dialect_of_no_extension content h, Language.eq_of_ofEvidence? hl hscript,
    Option.some.injEq]
  cases Script.showsTypes content.toList <;>
    cases Language.showsAnnotations content.toList <;> decide

/-- The first message of a reading names the language that was chosen. The outline has that
language as its tag exactly if a known extension or Python evidence or no evidence decides, or the
text shows types by the markers of the tag just as it does by those of the evidence. -/
theorem language_read_eq_detect?_iff (content : String) (filename : Option String) :
    (read content filename).2.head? =
        some ⟨.debug, filename.getD "<source>" ++ ": parsing as " ++
          Language.tag (Language.detect? content filename)⟩ ∧
      ((read content filename).1.language = Language.detect? content filename ↔
        (filename.bind Language.ofPath?).isSome = true ∨
          Language.ofEvidence? content = none ∨ Language.ofEvidence? content = some .python ∨
            Script.showsTypes content.toList = Language.showsAnnotations content.toList) := by
  refine ⟨head?_messages_read content filename, ?_⟩
  cases hextension : filename.bind Language.ofPath? with
  | some l => simp [language_read_of_extension content hextension]
  | none =>
    cases hevidence : Language.ofEvidence? content with
    | none => simp [language_read, Language.detect?, hextension, hevidence]
    | some l =>
      by_cases hscript : l = .python
      · simp [language_read, Language.detect?, hextension, hevidence, hscript]
      · simp [language_read_of_evidence hextension hevidence hscript, hscript]

/-- An annotation that counts as evidence is no marker of the tag. -/
theorem not_language_read_eq_detect? :
    ¬ ∀ (content : String) (filename : Option String),
      (read content filename).1.language = Language.detect? content filename := by
  intro h
  have heq := h "let b: boolean" none
  rw [language_read] at heq
  revert heq
  decide

end Reader

end SymbolAtlas
