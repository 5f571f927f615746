import Mathlib.Data.List.Basic
import Mathlib.Data.Option.Basic
import SymbolAtlas.Proofs.Python.PrintedImport
import SymbolAtlas.Proofs.Text.LineMatches
import SymbolAtlas.Proofs.Text.Pieces
import SymbolAtlas.Proofs.Text.SourceOrder
import SymbolAtlas.Python.Lines.Words

/-! # The lines of printed imports

Line by line, the patterns for import lines find in a text of printed statements the imports that
are printed, in source order, and the patterns for declarations and words find nothing.
-/

namespace SymbolAtlas.Python

open Lines Identifier

/-! ## Blanks and words -/

/-- A space before something else than a blank is a gap of its own. -/
theorem gapLength_space {rest : List Char} (h : rest.head?.all (!isSpaceOrTab ·) = true) :
    gapLength (' ' :: rest) = 1 := by
  have := @takeWhile_append_eq isSpaceOrTab [' '] rest (List.forall_mem_singleton.mpr rfl) h
  rw [gapLength]
  exact congrArg List.length this

theorem afterGap_space {rest : List Char} (h : rest.head?.all (!isSpaceOrTab ·) = true) :
    afterGap (' ' :: rest) = some (1, rest) := by
  rw [afterGap, gapLength_space h]
  rfl

theorem afterWord_append (word : String) {text : List Char} (h : word.toList = text)
    (rest : List Char) : afterWord word (text ++ rest) = some rest := by
  rw [afterWord, h]
  simp

theorem isBlank_of_isDottedPart {c : Char} (h : isDottedPart c = true) : isBlank c = false :=
  forall_ascii (P := fun c => isDottedPart c = true → isBlank c = false) (by decide +kernel)
    (toNat_of_isPrinted (isPrinted_of_isDottedPart h)) h

theorem isSpaceOrTab_of_isDottedPart {c : Char} (h : isDottedPart c = true) :
    isSpaceOrTab c = false :=
  forall_ascii (P := fun c => isDottedPart c = true → isSpaceOrTab c = false) (by decide +kernel)
    (toNat_of_isPrinted (isPrinted_of_isDottedPart h)) h

/-! ## Entries -/

/-- Whether a text ends with a character of a word. -/
def endsInWord (cs : List Char) : Bool := cs.getLast?.any isAsciiWord

theorem endsInWord_append {cs ds : List Char} (hcs : endsInWord cs = true)
    (hds : ds = [] ∨ endsInWord ds = true) : endsInWord (cs ++ ds) = true := by
  rcases hds with rfl | hds
  · rwa [List.append_nil]
  · unfold endsInWord at *
    cases hlast : ds.getLast? with
    | none =>
      rw [hlast] at hds
      cases hds
    | some d =>
      rw [hlast] at hds
      rw [List.getLast?_append, hlast]
      exact hds

theorem endsInWord_cons (c : Char) {cs : List Char} (h : endsInWord cs = true) :
    endsInWord (c :: cs) = true := by
  cases cs with
  | nil => cases h
  | cons d cs => exact h

theorem endsInWord_name (n : Name) : endsInWord n.chars = true := by
  rw [endsInWord, List.getLast?_eq_some_getLast n.chars_ne_nil]
  exact n.isAsciiWord_of_mem (List.getLast_mem _)

theorem endsInWord_dottedRest (names : List Name) :
    dottedRest names = [] ∨ endsInWord (dottedRest names) = true := by
  induction names with
  | nil => exact .inl rfl
  | cons n names ih => exact .inr (endsInWord_cons '.' (endsInWord_append (endsInWord_name n) ih))

theorem endsInWord_entry (e : Entry) : endsInWord e.chars = true := by
  apply endsInWord_append (endsInWord_append (endsInWord_name e.path.first)
    (endsInWord_dottedRest e.path.others))
  cases e.rename with
  | none => exact .inl rfl
  | some n =>
    have hspaced := endsInWord_cons ' ' (endsInWord_name n)
    exact .inr (endsInWord_cons ' ' (endsInWord_append (endsInWord_name asWord) (.inr hspaced)))

/-- Trimming an entry removes nothing but the blanks before it. -/
theorem trim_entry (e : Entry) (blanks : List Char) (hblanks : ∀ b ∈ blanks, isBlank b = true) :
    trim (blanks ++ e.chars) = e.chars := by
  obtain ⟨c, cs, hchars, hc⟩ := e.path.exists_cons
  have hhead : e.chars.dropWhile isBlank = e.chars := by
    rw [Entry.chars, hchars]
    have : isBlank c = false := isBlank_of_isDottedPart
      (by rw [isDottedPart, isAsciiWord_of_start hc, Bool.true_or])
    exact List.dropWhile_cons_of_neg (by rw [this]; exact Bool.false_ne_true)
  have hlast : e.chars.reverse.dropWhile isBlank = e.chars.reverse := by
    have hend := endsInWord_entry e
    rw [endsInWord, ← List.head?_reverse] at hend
    cases hrev : e.chars.reverse with
    | nil => rfl
    | cons d ds =>
      rw [hrev] at hend
      have : isBlank d = false := isBlank_of_isDottedPart
        (by rw [isDottedPart, show isAsciiWord d = true from hend, Bool.true_or])
      exact List.dropWhile_cons_of_neg (by rw [this]; exact Bool.false_ne_true)
  rw [trim, List.dropWhile_append_of_pos hblanks, hhead, hlast, List.reverse_reverse]

theorem renameIn_renameText (rename : Option Name) :
    renameIn (renameText rename) = some (rename.map fun n => String.ofList n.chars) := by
  cases rename with
  | none => rfl
  | some n =>
    have hblank (m : Name) (rest : List Char) :
        (' ' :: (m.chars ++ rest)).dropWhile isBlank = m.chars ++ rest := by
      obtain ⟨c, cs, hm, hc⟩ := m.exists_cons
      have : isBlank c = false := isBlank_of_isDottedPart
        (by rw [isDottedPart, isAsciiWord_of_start hc, Bool.true_or])
      rw [List.dropWhile_cons_of_pos (by decide), hm, List.cons_append,
        List.dropWhile_cons_of_neg (by rw [this]; exact Bool.false_ne_true)]
    have hafter := hblank asWord (' ' :: n.chars)
    have hrename := hblank n []
    rw [List.append_nil] at hrename
    have has : afterWord "as" (asWord.chars ++ ' ' :: n.chars) = some (' ' :: n.chars) :=
      afterWord_append "as" rfl _
    have hall : ∀ c ∈ n.chars, isAsciiWord c = true := fun c hc => n.isAsciiWord_of_mem hc
    have htext : renameText (some n) = ' ' :: (asWord.chars ++ ' ' :: n.chars) := rfl
    rw [htext]
    simp only [renameIn, hafter, has]
    simp only [guard, Option.pure_def, Option.bind_eq_bind, Option.bind_some, hrename]
    simp only [List.length_cons, Nat.lt_succ_self, decide_true, Bool.true_and]
    rw [if_pos (by simp), Option.bind_some, if_pos (by simpa [n.chars_ne_nil] using hall)]
    rfl

theorem entryBinding_entry (e : Entry) (blanks : List Char)
    (hblanks : ∀ b ∈ blanks, isBlank b = true) :
    entryBinding (blanks ++ e.chars) = some e.binding := by
  have hname : e.chars.takeWhile (fun c => isDottedPart c || c == '*') = e.path.chars := by
    apply takeWhile_append_eq
    · intro c hc
      rw [isDottedPart_of_mem e.path c hc, Bool.true_or]
    · cases e.rename <;> rfl
  have hne : e.path.chars.isEmpty = false := by
    obtain ⟨c, cs, hchars, _⟩ := e.path.exists_cons
    rw [hchars]
    rfl
  unfold entryBinding
  simp only [trim_entry e blanks hblanks, hname, hne, Bool.false_eq_true, if_false]
  rw [Entry.chars, List.drop_left, renameIn_renameText]
  rfl

/-- A text without commas is the first piece of a list that goes on with entries. -/
theorem splitAt_entriesRest {piece : List Char} (hpiece : ',' ∉ piece) (entries : List Entry) :
    splitAt ',' (piece ++ entriesRest entries) =
      piece :: entries.map fun e => ' ' :: e.chars := by
  induction entries generalizing piece with
  | nil => rw [entriesRest, List.flatMap_nil, List.append_nil, splitAt_of_not_mem hpiece]; rfl
  | cons e entries ih =>
    have he : ',' ∉ ' ' :: e.chars := by
      intro h
      rcases List.mem_cons.mp h with h | h
      · cases h
      · have := isEntryPart_of_mem e ',' h
        revert this
        decide
    have hrest : entriesRest (e :: entries) = ',' :: (' ' :: e.chars ++ entriesRest entries) := by
      simp [entriesRest]
    rw [hrest, splitAt_append, splitAt_of_not_mem hpiece, ih he]
    rfl

/-- The pieces of a list make its bindings. -/
theorem filterMap_entryBinding (es : Entries) :
    (splitAt ',' es.chars).filterMap entryBinding = es.bindings := by
  have hfirst : ',' ∉ es.first.chars := by
    intro h
    have := isEntryPart_of_mem es.first ',' h
    revert this
    decide
  have hentry (e : Entry) : entryBinding (' ' :: e.chars) = some e.binding :=
    entryBinding_entry e [' '] (List.forall_mem_singleton.mpr rfl)
  rw [Entries.chars, splitAt_entriesRest hfirst, List.filterMap_cons,
    show entryBinding es.first.chars = _ from entryBinding_entry es.first [] (by simp)]
  have hothers : entryBinding ∘ (fun e : Entry => ' ' :: e.chars) = some ∘ Entry.binding := by
    funext e
    exact hentry e
  rw [List.filterMap_map, hothers, List.filterMap_eq_map]
  rfl

/-! ## Lines -/

/-- What follows a line: the end of the text or a line feed. -/
def endsLine (rest : List Char) : Bool := rest.head?.all (· == '\n')

theorem endsLine_cases {rest : List Char} (h : endsLine rest = true) :
    rest = [] ∨ ∃ next, rest = '\n' :: next := by
  cases rest with
  | nil => exact .inl rfl
  | cons c next =>
    have : c = '\n' := by simpa [endsLine] using h
    exact .inr ⟨next, by rw [this]⟩

/-- A class without the line feed ends where a line ends. -/
theorem takeWhile_line {isPart : Char → Bool} {text rest : List Char}
    (htext : ∀ c ∈ text, isPart c = true) (hstop : isPart '\n' = false)
    (hrest : endsLine rest = true) : (text ++ rest).takeWhile isPart = text := by
  apply takeWhile_append_eq htext
  rcases endsLine_cases hrest with rfl | ⟨next, rfl⟩
  · rfl
  · rw [List.head?_cons, Option.all_some, hstop]
    rfl

/-- No blank begins a text that begins with a dot, a word or a star. -/
theorem head_all_of_any {text : List Char}
    (h : text.head?.any (fun c => isDottedPart c || c == '*') = true) (rest : List Char) :
    (text ++ rest).head?.all (!isSpaceOrTab ·) = true := by
  cases text with
  | nil => cases h
  | cons c text =>
    simp only [List.head?_cons, Option.any_some, Bool.or_eq_true, beq_iff_eq] at h
    rw [List.cons_append, List.head?_cons, Option.all_some]
    rcases h with h | rfl
    · rw [isSpaceOrTab_of_isDottedPart h]
      rfl
    · rfl

theorem Entries.head_any (es : Entries) :
    es.chars.head?.any (fun c => isDottedPart c || c == '*') = true := by
  obtain ⟨c, cs, h, hc⟩ := es.first.path.exists_cons
  rw [Entries.chars, Entry.chars, h, List.append_assoc, List.cons_append, List.head?_cons,
    Option.any_some, isDottedPart, isAsciiWord_of_start hc]
  rfl

theorem ModuleName.head_any (m : ModuleName) :
    m.chars.head?.any (fun c => isDottedPart c || c == '*') = true := by
  cases m with
  | absolute p =>
    obtain ⟨c, cs, h, hc⟩ := p.path.exists_cons
    rw [ModuleName.chars, h, List.head?_cons, Option.any_some, isDottedPart,
      isAsciiWord_of_start hc]
    rfl
  | relative _ _ => rfl

section line

variable {previous : Option Char} {rest : List Char}

theorem importLine_plain (es : Entries) (hprevious : atLineStart previous = true)
    (hrest : endsLine rest = true) :
    importLine previous ((ImportStatement.plain es).chars ++ rest) =
      some ((0, es.chars), 7 + es.chars.length) := by
  have htext : (ImportStatement.plain es).chars ++ rest =
      importWord.chars ++ ' ' :: (es.chars ++ rest) := by
    rw [ImportStatement.chars, List.append_assoc]
    rfl
  have hindent : gapLength (importWord.chars ++ ' ' :: (es.chars ++ rest)) = 0 := rfl
  have hword : afterWord "import" (importWord.chars ++ ' ' :: (es.chars ++ rest)) =
      some (' ' :: (es.chars ++ rest)) := afterWord_append "import" rfl _
  have hgap : afterGap (' ' :: (es.chars ++ rest)) = some (1, es.chars ++ rest) :=
    afterGap_space (head_all_of_any es.head_any rest)
  have hentries : (es.chars ++ rest).takeWhile
      (fun c => isDottedPart c || isSpaceOrTab c || c == ',') = es.chars := by
    apply takeWhile_line _ rfl hrest
    intro c hc
    have hpart := isListPart_of_mem es c hc
    simp only [isListPart, isEntryPart, Bool.or_eq_true, beq_iff_eq] at hpart
    rcases hpart with (h | rfl) | rfl
    · simp [h]
    · rfl
    · rfl
  rw [htext, importLine]
  simp [guard, hindent, hprevious, hword, hgap, hentries]

theorem importLine_from (text : List Char) :
    importLine previous (fromWord.chars ++ text) = none := by
  have hindent : gapLength (fromWord.chars ++ text) = 0 := rfl
  have hword : afterWord "import" (fromWord.chars ++ text) = none := rfl
  rw [importLine]
  simp [hindent, hword]

theorem fromLine_from (m : ModuleName) {text : List Char}
    (htext : ∀ c ∈ text, isPrinted c = true)
    (hhead : text.head?.any (fun c => isDottedPart c || c == '*') = true)
    (hprevious : atLineStart previous = true) (hrest : endsLine rest = true) :
    fromLine previous (fromWord.chars ++ ' ' :: (m.chars ++ ' ' :: (importWord.chars ++ ' ' ::
        (text ++ rest)))) =
      some ((0, String.ofList m.chars, text), 13 + m.chars.length + text.length) := by
  have hindent (cs : List Char) : gapLength (fromWord.chars ++ cs) = 0 := rfl
  have hword (cs : List Char) : afterWord "from" (fromWord.chars ++ cs) = some cs :=
    afterWord_append "from" rfl _
  have hmoduleGap (cs : List Char) : afterGap (' ' :: (m.chars ++ cs)) = some (1, m.chars ++ cs) :=
    afterGap_space (head_all_of_any m.head_any cs)
  have hmodule (cs : List Char) : (m.chars ++ ' ' :: cs).takeWhile isDottedPart = m.chars :=
    takeWhile_append_eq (isDottedPart_of_mem_module m) rfl
  have hne : m.chars ≠ [] := by
    intro h
    have := m.head_any
    rw [h] at this
    cases this
  have himportGap (cs : List Char) : afterGap (' ' :: (importWord.chars ++ cs)) =
      some (1, importWord.chars ++ cs) := afterGap_space rfl
  have himport (cs : List Char) : afterWord "import" (importWord.chars ++ cs) = some cs :=
    afterWord_append "import" rfl _
  have htextGap : afterGap (' ' :: (text ++ rest)) = some (1, text ++ rest) :=
    afterGap_space (head_all_of_any hhead rest)
  have hentries : (text ++ rest).takeWhile (fun c => c != '\n' && c != '#') = text := by
    apply takeWhile_line _ rfl hrest
    intro c hc
    exact forall_ascii (P := fun c => isPrinted c = true → (c != '\n' && c != '#') = true)
      (by decide +kernel) (toNat_of_isPrinted (htext c hc)) (htext c hc)
  have htextNe : text ≠ [] := by
    rintro rfl
    cases hhead
  rw [fromLine]
  simp only [guard, hprevious, hindent, List.drop_zero, hword, Option.bind_eq_bind,
    Option.bind_some, hmoduleGap, hmodule, hne, List.drop_left', himportGap, himport, htextGap,
    hentries, htextNe, List.isEmpty_eq_false_iff, ne_eq, not_false_eq_true, Bool.not_eq_true',
    Bool.or_eq_true, true_or, if_true, Option.pure_def, Option.some.injEq, Prod.mk.injEq, true_and]
  omega

theorem fromLine_plain (text : List Char) :
    fromLine previous (importWord.chars ++ text) = none := by
  have hindent : gapLength (importWord.chars ++ text) = 0 := rfl
  have hword : afterWord "from" (importWord.chars ++ text) = none := rfl
  rw [fromLine]
  simp [hindent, hword]

end line

/-! ## Texts -/

/-- The statements of a text with the offsets of their lines, the first of them at `offset`. -/
def placedFrom (offset : Nat) : List ImportStatement → List (Nat × ImportStatement)
  | [] => []
  | s :: statements =>
    (offset, s) :: placedFrom (offset + utf16Length s.chars + 1) statements

theorem endsLine_afterStatement (isEnded : Bool) (next : List Char) :
    endsLine (afterStatement isEnded next) = true := by
  rw [afterStatement]
  split <;> rfl

theorem afterStatement_cons (isEnded : Bool) (next : ImportStatement)
    (statements : List ImportStatement) :
    afterStatement isEnded (importText isEnded (next :: statements)) =
      '\n' :: importText isEnded (next :: statements) := by
  obtain ⟨c, cs, h, _⟩ := next.exists_cons
  rw [afterStatement, importText, h]
  simp

/-- An anchored pattern that tells of each statement what `found` tells has these matches. -/
theorem matchesFrom_importText {α : Type} {pattern : Pattern α} (hanchored : pattern.Anchored)
    {found : ImportStatement → Option α}
    (hfound : ∀ previous s rest, atLineStart previous = true → endsLine rest = true →
      (pattern previous (s.chars ++ rest)).map (·.1) = found s ∧
        ∀ m ∈ pattern previous (s.chars ++ rest), m.2 ≤ s.chars.length)
    (isEnded : Bool) (statements : List ImportStatement) (offset : Nat) {previous : Option Char}
    (hprevious : atLineStart previous = true) :
    Pattern.matchesFrom pattern offset previous 0 (importText isEnded statements) =
      (placedFrom offset statements).filterMap fun p => (found p.2).map fun a => (p.1, a) := by
  induction statements generalizing offset previous with
  | nil => rfl
  | cons s statements ih =>
    obtain ⟨hhere, hlength⟩ := hfound previous s _ hprevious
      (endsLine_afterStatement isEnded (importText isEnded statements))
    have hne : s.chars ≠ [] := by
      obtain ⟨c, cs, h, _⟩ := s.exists_cons
      rw [h]
      exact List.cons_ne_nil c cs
    obtain ⟨d, hd, hline⟩ := Pattern.matchesFrom_line hanchored hne
      (fun c hc => isLineBreak_of_isPrinted (isPrinted_of_mem s c hc)) offset previous _ hlength
    have hrest : Pattern.matchesFrom pattern (offset + utf16Length s.chars) (some d) 0
          (afterStatement isEnded (importText isEnded statements)) =
        (placedFrom (offset + utf16Length s.chars + 1) statements).filterMap
          fun p => (found p.2).map fun a => (p.1, a) := by
      cases statements with
      | nil =>
        cases isEnded with
        | false => rfl
        | true =>
          exact Pattern.matchesFrom_lineFeed hanchored hd _ _
      | cons next statements =>
        rw [afterStatement_cons, Pattern.matchesFrom_lineFeed hanchored hd]
        exact ih _ rfl
    rw [importText, hline, hrest, placedFrom, List.filterMap_cons, ← hhere]
    cases pattern previous (s.chars ++ afterStatement isEnded (importText isEnded statements)) with
    | none => rfl
    | some m => rfl

theorem le_of_mem_placedFrom {offset o : Nat} {s : ImportStatement}
    {statements : List ImportStatement} (h : (o, s) ∈ placedFrom offset statements) :
    offset ≤ o := by
  induction statements generalizing offset with
  | nil => cases h
  | cons first statements ih =>
    rcases List.mem_cons.mp h with h | h
    · exact Nat.le_of_eq (Prod.mk.inj h).1.symm
    · have := ih h
      omega

theorem placedFrom_pairwise (offset : Nat) (statements : List ImportStatement) :
    (placedFrom offset statements).Pairwise fun a b => a.1 < b.1 := by
  induction statements generalizing offset with
  | nil => exact .nil
  | cons s statements ih =>
    refine List.pairwise_cons.mpr ⟨?_, ih _⟩
    intro b hb
    have := le_of_mem_placedFrom hb
    omega

/-- At each offset there is one statement. -/
theorem placedFrom_unique {offset o : Nat} {s t : ImportStatement}
    {statements : List ImportStatement} (hs : (o, s) ∈ placedFrom offset statements)
    (ht : (o, t) ∈ placedFrom offset statements) : s = t := by
  induction statements generalizing offset with
  | nil => cases hs
  | cons first statements ih =>
    rcases List.mem_cons.mp hs with hs' | hs' <;> rcases List.mem_cons.mp ht with ht' | ht'
    · exact (Prod.mk.inj hs').2.trans (Prod.mk.inj ht').2.symm
    · have := le_of_mem_placedFrom ht'
      have := (Prod.mk.inj hs').1
      omega
    · have := le_of_mem_placedFrom hs'
      have := (Prod.mk.inj ht').1
      omega
    · exact ih hs' ht'

/-! ## Imports -/

/-- The imports of placed statements with the offsets of their lines. -/
def placedImports (index : LineIndex) (placed : List (Nat × ImportStatement)) :
    List (Nat × Import) :=
  placed.flatMap fun p => (p.2.imports (index.locate p.1)).map fun i => (p.1, i)

def isPlain (found : Nat × Import) : Bool :=
  match found.2.clause with
  | .plain _ => true
  | _ => false

/-- What the pattern of plain imports finds in a statement: its indentation and its list. -/
def plainFound : ImportStatement → Option (Nat × List Char)
  | .plain entries => some (0, entries.chars)
  | _ => none

/-- What the pattern of other imports finds in a statement: its indentation, module and list. -/
def fromFound : ImportStatement → Option (Nat × String × List Char)
  | .plain _ => none
  | .listed module entries => some (0, String.ofList module.chars, entries.chars)
  | .wildcard module => some (0, String.ofList module.chars, ['*'])

theorem isPlain_imports {s : ImportStatement} {p : Position} {i : Import} (hi : i ∈ s.imports p)
    (offset : Nat) : isPlain (offset, i) = (plainFound s).isSome := by
  cases s with
  | plain entries =>
    obtain ⟨b, _, rfl⟩ := List.mem_map.mp hi
    rfl
  | listed module entries =>
    rw [List.mem_singleton.mp hi]
    rfl
  | wildcard module =>
    rw [List.mem_singleton.mp hi]
    rfl

theorem importLine_anchored : importLine.Anchored := by
  intro c cs hc
  simp [importLine, atLineStart, hc, guard]

theorem fromLine_anchored : fromLine.Anchored := by
  intro c cs hc
  simp [fromLine, atLineStart, hc, guard]

theorem plainImports_eq (position : Position) (entries : Entries) :
    plainImports position entries.chars = (ImportStatement.plain entries).imports position := by
  rw [plainImports, filterMap_entryBinding]
  rfl

theorem fromImport_eq (position : Position) (module : String) {text : List Char}
    {bs : List Binding} (htext : ∀ c ∈ text, isPrinted c = true)
    (hbs : (splitAt ',' text).filterMap entryBinding = bs) :
    fromImport position module text = ⟨.fromModule bs, module, position⟩ := by
  have hbare : text.filter (fun c => !(c == '(' || c == ')' || c == '\\')) = text := by
    rw [List.filter_eq_self]
    intro c hc
    exact forall_ascii
      (P := fun c => isPrinted c = true → (!(c == '(' || c == ')' || c == '\\')) = true)
      (by decide +kernel) (toNat_of_isPrinted (htext c hc)) (htext c hc)
  rw [fromImport, hbare, hbs]

theorem isPrinted_of_mem_entries {es : Entries} {c : Char} (h : c ∈ es.chars) :
    isPrinted c = true := by
  rw [isPrinted, isListPart_of_mem es c h]
  rfl

theorem plainFound_spec (previous : Option Char) (s : ImportStatement) (rest : List Char)
    (hprevious : atLineStart previous = true) (hrest : endsLine rest = true) :
    (importLine previous (s.chars ++ rest)).map (·.1) = plainFound s ∧
      ∀ m ∈ importLine previous (s.chars ++ rest), m.2 ≤ s.chars.length := by
  cases s with
  | plain entries =>
    rw [importLine_plain entries hprevious hrest]
    refine ⟨rfl, ?_⟩
    intro m hm
    rw [← Option.some.inj hm, ImportStatement.chars, List.length_append, List.length_cons]
    simp only [importWord, List.length_cons, List.length_nil]
    omega
  | listed module entries =>
    rw [ImportStatement.chars, List.append_assoc, importLine_from]
    exact ⟨rfl, by simp⟩
  | wildcard module =>
    rw [ImportStatement.chars, List.append_assoc, importLine_from]
    exact ⟨rfl, by simp⟩

theorem fromFound_spec (previous : Option Char) (s : ImportStatement) (rest : List Char)
    (hprevious : atLineStart previous = true) (hrest : endsLine rest = true) :
    (fromLine previous (s.chars ++ rest)).map (·.1) = fromFound s ∧
      ∀ m ∈ fromLine previous (s.chars ++ rest), m.2 ≤ s.chars.length := by
  have hfrom (m : ModuleName) {text : List Char} (htext : ∀ c ∈ text, isPrinted c = true)
      (hhead : text.head?.any (fun c => isDottedPart c || c == '*') = true) :
      fromLine previous (fromWord.chars ++ ' ' :: (m.chars ++ ' ' ::
          (importWord.chars ++ ' ' :: text)) ++ rest) =
        some ((0, String.ofList m.chars, text), 13 + m.chars.length + text.length) := by
    rw [← fromLine_from m htext hhead hprevious hrest]
    simp
  cases s with
  | plain entries =>
    rw [ImportStatement.chars, List.append_assoc, fromLine_plain]
    exact ⟨rfl, by simp⟩
  | listed module entries =>
    rw [ImportStatement.chars, hfrom module (fun c hc => isPrinted_of_mem_entries hc)
      entries.head_any]
    refine ⟨rfl, ?_⟩
    intro m hm
    rw [← Option.some.inj hm]
    exact Nat.le_of_eq (length_moduleImport module entries.chars).symm
  | wildcard module =>
    rw [ImportStatement.chars, @hfrom module ['*']
      (List.forall_mem_singleton.mpr rfl) rfl]
    refine ⟨rfl, ?_⟩
    intro m hm
    rw [← Option.some.inj hm]
    exact Nat.le_of_eq (length_moduleImport module ['*']).symm

/-- A statement's imports are all plain or none of them is. -/
theorem filter_placedImports_cons (q : Bool → Bool) (index : LineIndex) (offset : Nat)
    (s : ImportStatement) (placed : List (Nat × ImportStatement)) :
    (placedImports index ((offset, s) :: placed)).filter (fun x => q (isPlain x)) =
      (if q (plainFound s).isSome then
          (s.imports (index.locate offset)).map fun i => (offset, i) else []) ++
        (placedImports index placed).filter fun x => q (isPlain x) := by
  have hkind : ∀ x ∈ (s.imports (index.locate offset)).map fun i => (offset, i),
      q (isPlain x) = q (plainFound s).isSome := by
    intro x hx
    obtain ⟨i, hi, rfl⟩ := List.mem_map.mp hx
    rw [isPlain_imports hi offset]
  rw [placedImports, List.flatMap_cons, List.filter_append]
  congr 1
  split
  · next hq => exact List.filter_eq_self.mpr fun x hx => (hkind x hx).trans hq
  · next hq => exact List.filter_eq_nil_iff.mpr fun x hx => by rwa [hkind x hx]

/-- The plain imports of a text are those that the pattern for them finds. -/
theorem filter_isPlain (index : LineIndex) (placed : List (Nat × ImportStatement)) :
    (placedImports index placed).filter isPlain =
      (placed.filterMap fun p => (plainFound p.2).map fun a => (p.1, a)).flatMap
        fun (offset, indent, entries) =>
          (plainImports (index.locate (offset + indent)) entries).map
            fun i => (offset + indent, i) := by
  induction placed with
  | nil => rfl
  | cons p placed ih =>
    refine (filter_placedImports_cons id index p.1 p.2 placed).trans ?_
    change _ ++ (placedImports index placed).filter isPlain = _
    rw [ih, List.filterMap_cons]
    obtain ⟨offset, s⟩ := p
    cases s with
    | plain entries =>
      simp only [plainFound, Option.map_some, List.flatMap_cons, plainImports_eq]
      rfl
    | listed _ _ | wildcard _ => rfl

/-- The other imports of a text are those that the pattern for them finds. -/
theorem filter_not_isPlain (index : LineIndex) (placed : List (Nat × ImportStatement)) :
    (placedImports index placed).filter (!isPlain ·) =
      (placed.filterMap fun p => (fromFound p.2).map fun a => (p.1, a)).map
        fun (offset, indent, module, entries) =>
          (offset + indent, fromImport (index.locate (offset + indent)) module entries) := by
  induction placed with
  | nil => rfl
  | cons p placed ih =>
    refine (filter_placedImports_cons (!·) index p.1 p.2 placed).trans ?_
    rw [ih, List.filterMap_cons]
    obtain ⟨offset, s⟩ := p
    cases s with
    | plain entries => rfl
    | listed module entries =>
      simp only [fromFound, Option.map_some, List.map_cons]
      rw [fromImport_eq _ _ (fun c hc => isPrinted_of_mem_entries hc)
        (filterMap_entryBinding entries)]
      rfl
    | wildcard module =>
      simp only [fromFound, Option.map_some, List.map_cons]
      rw [@fromImport_eq _ _ ['*'] [⟨"*", none⟩] (List.forall_mem_singleton.mpr rfl) rfl]
      rfl

theorem placedImports_sorted (index : LineIndex) (statements : List ImportStatement) :
    (placedImports index (placedFrom 0 statements)).Pairwise fun a b => a.1 ≤ b.1 := by
  rw [placedImports, List.pairwise_flatMap]
  constructor
  · intro p _
    rw [List.pairwise_map]
    exact List.pairwise_iff_forall_sublist.mpr fun _ => Nat.le_refl p.1
  · refine (placedFrom_pairwise 0 statements).imp ?_
    intro p q hpq x hx y hy
    obtain ⟨_, _, rfl⟩ := List.mem_map.mp hx
    obtain ⟨_, _, rfl⟩ := List.mem_map.mp hy
    exact Nat.le_of_lt hpq

/-- What stands on one line is of one kind. -/
theorem isPlain_placedImports (index : LineIndex) (statements : List ImportStatement) :
    ∀ a ∈ placedImports index (placedFrom 0 statements),
      ∀ b ∈ placedImports index (placedFrom 0 statements), a.1 = b.1 → isPlain a = isPlain b := by
  intro a ha b hb hab
  obtain ⟨⟨o, s⟩, hs, ha⟩ := List.mem_flatMap.mp ha
  obtain ⟨i, hi, rfl⟩ := List.mem_map.mp ha
  obtain ⟨⟨o', t⟩, ht, hb⟩ := List.mem_flatMap.mp hb
  obtain ⟨j, hj, rfl⟩ := List.mem_map.mp hb
  obtain rfl : o = o' := hab
  obtain rfl := placedFrom_unique hs ht
  rw [isPlain_imports hi o, isPlain_imports hj o]

/-- The index of a text locates each statement at the start of its line. -/
theorem placedImports_eq (isEnded : Bool) (statements : List ImportStatement) (before : List Char)
    {line : Int} (hbefore : Position.start.after before = ⟨line, 1⟩) :
    (placedImports (.ofList (before ++ importText isEnded statements))
        (placedFrom (utf16Length before) statements)).map (·.2) =
      importsFrom line statements := by
  induction statements generalizing before line with
  | nil => rfl
  | cons s statements ih =>
    have hhead : (LineIndex.ofList (before ++ importText isEnded (s :: statements))).locate
        (utf16Length before) = ⟨line, 1⟩ := by
      rw [LineIndex.locate_prefix, hbefore]
    rw [placedFrom, placedImports, List.flatMap_cons, List.map_append, List.map_map]
    simp only [hhead]
    congr 1
    · exact List.map_id _
    cases statements with
    | nil => rfl
    | cons next statements =>
      have hline : Position.start.after (before ++ s.chars ++ ['\n']) = ⟨line + 1, 1⟩ := by
        rw [Position.after_append, Position.after_append, hbefore]
        exact Position.after_lineFeed (lineFeed_not_mem s) ⟨line, 1⟩
      have htext : before ++ importText isEnded (s :: next :: statements) =
          before ++ s.chars ++ ['\n'] ++ importText isEnded (next :: statements) := by
        rw [importText, afterStatement_cons, List.append_assoc, List.append_assoc]
        rfl
      have hoffset : utf16Length before + utf16Length s.chars + 1 =
          utf16Length (before ++ s.chars ++ ['\n']) := by
        rw [utf16Length_append, utf16Length_append]
        rfl
      rw [htext, hoffset]
      exact ih _ hline

theorem imports_importText (isEnded : Bool) (statements : List ImportStatement) :
    Lines.imports (String.ofList (importText isEnded statements)) = importsFrom 1 statements := by
  have hplain : importLine.matchesIn (importText isEnded statements) =
      (placedFrom 0 statements).filterMap fun p => (plainFound p.2).map fun a => (p.1, a) :=
    matchesFrom_importText importLine_anchored plainFound_spec isEnded statements 0 rfl
  have hfrom : fromLine.matchesIn (importText isEnded statements) =
      (placedFrom 0 statements).filterMap fun p => (fromFound p.2).map fun a => (p.1, a) :=
    matchesFrom_importText fromLine_anchored fromFound_spec isEnded statements 0 rfl
  rw [Lines.imports]
  simp only [String.toList_ofList, hplain, hfrom]
  rw [← filter_isPlain, ← filter_not_isPlain,
    mergeSort_kinds (placedImports_sorted _ _) (isPlain_placedImports _ _)]
  exact placedImports_eq isEnded statements [] rfl

/-! ## Declarations and references -/

/-- Every statement begins with a word of the language, a space and a name, a dot or a star. -/
theorem ImportStatement.exists_word (s : ImportStatement) :
    ∃ w : Name, (w = importWord ∨ w = fromWord) ∧
      ∃ text, text.head?.any (fun c => isDottedPart c || c == '*') = true ∧
        s.chars = w.chars ++ ' ' :: text := by
  have hmodule (m : ModuleName) (rest : List Char) :
      (m.chars ++ rest).head?.any (fun c => isDottedPart c || c == '*') = true := by
    have := m.head_any
    cases hchars : m.chars with
    | nil =>
      rw [hchars] at this
      cases this
    | cons c cs =>
      rw [hchars] at this
      exact this
  cases s with
  | plain entries => exact ⟨importWord, .inl rfl, _, entries.head_any, rfl⟩
  | listed module entries => exact ⟨fromWord, .inr rfl, _, hmodule module _, rfl⟩
  | wildcard module => exact ⟨fromWord, .inr rfl, _, hmodule module _, rfl⟩

theorem functionLine_statement (previous : Option Char) (s : ImportStatement) (rest : List Char) :
    functionLine previous (s.chars ++ rest) = none := by
  obtain ⟨w, hw, text, _, hs⟩ := s.exists_word
  have hasync : afterWord "async" (s.chars ++ rest) = none := by
    rw [hs]
    rcases hw with rfl | rfl <;> rfl
  have hdef : afterWord "def" (s.chars ++ rest) = none := by
    rw [hs]
    rcases hw with rfl | rfl <;> rfl
  rw [functionLine]
  simp [hasync, hdef]

theorem classLine_statement (previous : Option Char) (s : ImportStatement) (rest : List Char) :
    classLine previous (s.chars ++ rest) = none := by
  obtain ⟨w, hw, text, _, hs⟩ := s.exists_word
  have hclass : afterWord "class" (s.chars ++ rest) = none := by
    rw [hs]
    rcases hw with rfl | rfl <;> rfl
  rw [classLine]
  simp [hclass]

/-- After the first word of a statement comes neither an annotation nor an equals sign. -/
theorem assignmentLine_statement (previous : Option Char) (s : ImportStatement)
    (rest : List Char) : assignmentLine previous (s.chars ++ rest) = none := by
  obtain ⟨w, _, text, htext, hs⟩ := s.exists_word
  have hname : nameAhead (s.chars ++ rest) = some w.chars := by
    rw [hs, List.append_assoc]
    exact nameAhead_name w rfl
  have hdrop : (s.chars ++ rest).drop w.chars.length = ' ' :: (text ++ rest) := by
    rw [hs, List.append_assoc, List.drop_left]
    rfl
  have hgap : gapLength (' ' :: (text ++ rest)) = 1 := gapLength_space (head_all_of_any htext rest)
  obtain ⟨c, cs, rfl⟩ : ∃ c cs, text = c :: cs := by
    cases text with
    | nil => cases htext
    | cons c cs => exact ⟨c, cs, rfl⟩
  have hcolon : c ≠ ':' := by
    rintro rfl
    cases htext
  have hequals : c ≠ '=' := by
    rintro rfl
    cases htext
  have hnote : afterAnnotation (c :: cs ++ rest) = some (0, c :: cs ++ rest) := by
    rw [List.cons_append]
    unfold afterAnnotation
    split
    · exact absurd (List.cons.inj ‹_›).1 hcolon
    · rfl
  rw [assignmentLine]
  simp only [hname, hdrop, hgap, Option.bind_eq_bind, Option.bind_some, List.drop_succ_cons,
    List.drop_zero, hnote]
  cases (guard (atLineStart previous) : Option Unit) with
  | none => rfl
  | some _ =>
    simp only [Option.bind_some, List.cons_append]
    split
    · exact absurd (List.cons.inj ‹_›).1 hequals
    · rfl

/-- A pattern that finds nothing in statements has no matches. -/
theorem matchesIn_importText_nil {α : Type} {pattern : Pattern α} (hanchored : pattern.Anchored)
    (hnone : ∀ previous s rest, pattern previous (ImportStatement.chars s ++ rest) = none)
    (isEnded : Bool) (statements : List ImportStatement) :
    pattern.matchesIn (importText isEnded statements) = [] := by
  have hfound := @matchesFrom_importText α pattern hanchored (fun _ => none)
    (fun previous s rest _ _ => by simp [hnone]) isEnded statements 0 none rfl
  rw [Pattern.matchesIn, hfound]
  simp

theorem declarations_importText (isEnded : Bool) (statements : List ImportStatement) :
    Lines.declarations (String.ofList (importText isEnded statements)) = [] := by
  have hfunction : functionLine.Anchored := by
    intro c cs hc
    simp [functionLine, atLineStart, hc, guard]
  have hclass : classLine.Anchored := by
    intro c cs hc
    simp [classLine, atLineStart, hc, guard]
  have hassignment : assignmentLine.Anchored := by
    intro c cs hc
    simp [assignmentLine, atLineStart, hc, guard]
  rw [Lines.declarations]
  simp only [String.toList_ofList, matchesIn_importText_nil hfunction functionLine_statement,
    matchesIn_importText_nil hclass classLine_statement,
    matchesIn_importText_nil hassignment assignmentLine_statement, List.filter_nil,
    List.append_nil, List.map_nil, List.mergeSort_nil]
  rfl

/-- Every line of statements is an import line or empty. -/
theorem lineReferences_of_mem {isEnded : Bool} {statements : List ImportStatement}
    {line : List Char} (h : line ∈ splitAt '\n' (importText isEnded statements)) (number : Nat) :
    lineReferences number line = [] := by
  have hempty : lineReferences number [] = [] := rfl
  have hstatement (s : ImportStatement) : lineReferences number s.chars = [] := by
    obtain ⟨w, hw, text, _, hs⟩ := s.exists_word
    have himport : isImportLine s.chars = true := by
      rw [hs]
      rcases hw with rfl | rfl <;> rfl
    rw [lineReferences, if_pos himport]
  induction statements with
  | nil =>
    rw [List.mem_singleton.mp h]
    exact hempty
  | cons s statements ih =>
    rw [importText, afterStatement] at h
    split at h
    · rw [splitAt_append, splitAt_of_not_mem (lineFeed_not_mem s)] at h
      rcases List.mem_append.mp h with h | h
      · rw [List.mem_singleton.mp h]
        exact hstatement s
      · exact ih h
    · rw [List.append_nil, splitAt_of_not_mem (lineFeed_not_mem s)] at h
      rw [List.mem_singleton.mp h]
      exact hstatement s

theorem referencesFrom_eq_nil {lines : List (List Char)}
    (h : ∀ line ∈ lines, ∀ number, lineReferences number line = []) (number : Nat) :
    referencesFrom number lines = [] := by
  induction lines generalizing number with
  | nil => rfl
  | cons line lines ih =>
    obtain ⟨hline, hlines⟩ := List.forall_mem_cons.mp h
    rw [referencesFrom, hline, ih hlines]
    rfl

theorem references_importText (isEnded : Bool) (statements : List ImportStatement) :
    Lines.references (String.ofList (importText isEnded statements)) = [] := by
  rw [Lines.references, String.toList_ofList]
  exact referencesFrom_eq_nil (fun _ hline => lineReferences_of_mem hline) 1

end SymbolAtlas.Python
