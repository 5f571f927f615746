import SymbolAtlas.Proofs.Python.ReferenceOrder
import SymbolAtlas.Proofs.Python.Word
import SymbolAtlas.Proofs.Text.Lines
import SymbolAtlas.Python.Lines.Words

/-! # References without a syntax tree

A source may have a syntax tree, and then its references are names in the tree. The lines of the
source tell the same references, apart from those on import lines and those behind the character
that begins comments: it hides the rest of its line even where it stands in a string.
-/

namespace SymbolAtlas.Python

open Identifier Lines

/-! ## Words of a line -/

/-- A word of ASCII is a name. -/
theorem isPlainName_wordOf {cs : List Char} (hascii : ∀ c ∈ cs, c.toNat < 0x80)
    (h : wordOf cs ≠ []) : isPlainName (wordOf cs) = true := by
  cases cs with
  | nil => exact absurd rfl h
  | cons c cs =>
    obtain ⟨hc, hcs⟩ := List.forall_mem_cons.mp hascii
    have hstart : isAsciiWordStart c = true := by
      by_contra hstart
      rw [← isWordStart_of_ascii hc] at hstart
      exact h (by simp [wordOf, hstart])
    have hpart : isWordPart c = true := by
      rw [isWordPart_of_ascii hc]
      exact isAsciiWord_of_start hstart
    rw [wordOf_eq h, List.takeWhile_cons_of_pos hpart, isPlainName, hstart, Bool.true_and,
      List.all_eq_true]
    intro d hd
    rw [← isWordPart_of_ascii (hcs d ((List.takeWhile_sublist _).subset hd))]
    exact List.all_eq_true.mp List.all_takeWhile d hd

namespace Lines

/-- A run of a class that ends in a text is the same whatever follows the text. -/
theorem takeWhile_append_of_last {isPart : Char → Bool} {cs : List Char} {d : Char}
    (hlast : cs.getLast? = some d) (hd : isPart d = false) (ds : List Char) :
    (cs ++ ds).takeWhile isPart = cs.takeWhile isPart := by
  rw [List.takeWhile_append, if_neg]
  intro hlength
  have hall := List.takeWhile_eq_self_iff.mp
    ((List.takeWhile_prefix isPart).eq_of_length hlength)
  rw [hall d (List.mem_of_getLast? hlast)] at hd
  cases hd

/-- A match of the word pattern begins a word and takes all of it. -/
theorem word_eq_some {previous : Option Char} {cs : List Char} {w : String} {length : Nat}
    (h : word previous cs = some (w, length)) :
    cs.head?.any isAsciiWordStart = true ∧ length = (cs.takeWhile isAsciiWord).length := by
  simp only [word, Option.bind_eq_bind, Option.bind_eq_some_iff] at h
  obtain ⟨_, _, name, hname, heq⟩ := h
  cases heq
  unfold nameAhead at hname
  split at hname
  · split at hname
    · cases hname
      exact ⟨by assumption, rfl⟩
    · cases hname
  · cases hname

/-- The word pattern finds every name that stands apart. -/
theorem mem_matchesFrom_word (n : Name) {rest : List Char}
    (hrest : rest.head?.all (!isAsciiWord ·) = true) {cs : List Char} {offset skip : Nat}
    {previous : Option Char} (hskip : skip ≤ (cs.takeWhile isAsciiWord).length)
    (hlast : (cs.getLast?.or previous).any isAsciiWord = false) :
    (offset + utf16Length cs, String.ofList n.chars) ∈
      Pattern.matchesFrom word offset previous skip (cs ++ (n.chars ++ rest)) := by
  induction cs generalizing offset skip previous with
  | nil =>
    obtain rfl : skip = 0 := Nat.le_zero.mp hskip
    have hmatch : word previous (n.chars ++ rest) =
        some (String.ofList n.chars, n.chars.length) := by
      have hprevious : previous.any isAsciiWord = false := hlast
      rw [word, nameAhead_name n hrest, hprevious]
      rfl
    obtain ⟨c, cs, hn, _⟩ := n.exists_cons
    rw [hn, List.cons_append] at hmatch ⊢
    rw [List.nil_append, Pattern.matchesFrom, hmatch]
    exact List.mem_cons_self
  | cons c cs ih =>
    have hlast' : (cs.getLast?.or (some c)).any isAsciiWord = false := by
      rw [← hlast, getLast?_cons_or]
    rw [utf16Length_cons, ← Nat.add_assoc, List.cons_append]
    cases skip with
    | succ skip =>
      refine ih ?_ hlast'
      by_cases hc : isAsciiWord c = true
      · rw [List.takeWhile_cons_of_pos hc, List.length_cons] at hskip
        omega
      · rw [List.takeWhile_cons_of_neg hc] at hskip
        cases hskip
    | zero =>
      rw [Pattern.matchesFrom]
      split
      · rename_i a length hmatch
        refine List.mem_cons_of_mem _ (ih ?_ hlast')
        -- The match ends in the text, because no word goes on at its end.
        obtain ⟨hstart, rfl⟩ := word_eq_some hmatch
        have hc : isAsciiWord c = true := isAsciiWord_of_start hstart
        rw [List.takeWhile_cons_of_pos hc, List.length_cons, Nat.add_sub_cancel]
        cases hd : cs.getLast? with
        | none =>
          rw [hd, Option.none_or, Option.any_some, hc] at hlast'
          cases hlast'
        | some d =>
          rw [hd, Option.some_or, Option.any_some] at hlast'
          rw [takeWhile_append_of_last hd hlast']
      · exact ih (Nat.zero_le _) hlast'

/-- Where a comment seems to begin, nothing further on is looked at. -/
theorem withoutComment_append_of_mem {head : List Char} (h : '#' ∈ head) (more : List Char) :
    withoutComment (head ++ more) = withoutComment head := by
  rw [withoutComment, List.takeWhile_append, if_neg]
  · rfl
  · intro hlength
    have hall := List.takeWhile_eq_self_iff.mp
      ((List.takeWhile_prefix (· != '#')).eq_of_length hlength)
    exact absurd (hall '#' h) (by decide)

theorem withoutComment_append_of_not_mem {head : List Char} (h : '#' ∉ head) (more : List Char) :
    withoutComment (head ++ more) = head ++ withoutComment more := by
  refine List.takeWhile_append_of_pos fun c hc => ?_
  rw [bne_iff_ne]
  rintro rfl
  exact h hc

theorem utf16Length_withoutComment_le (cs : List Char) :
    utf16Length (withoutComment cs) ≤ utf16Length cs := by
  have hsum : utf16Length (cs.takeWhile (· != '#') ++ cs.dropWhile (· != '#')) =
      utf16Length cs := by rw [List.takeWhile_append_dropWhile]
  rw [utf16Length_append] at hsum
  rw [withoutComment]
  omega

theorem withoutComment_head_all {rest : List Char} {p : Char → Bool}
    (h : rest.head?.all p = true) : (withoutComment rest).head?.all p = true := by
  cases rest with
  | nil => rfl
  | cons c rest =>
    rw [withoutComment, List.takeWhile_cons]
    split
    · exact h
    · rfl

/-- A name on a line is found exactly if nothing before it on the line begins a comment, be it
only by its looks. -/
theorem mem_matchesIn_word_iff (n : Name) {head rest : List Char}
    (hhead : head.getLast?.any isAsciiWord = false)
    (hrest : rest.head?.all (!isAsciiWord ·) = true) :
    (utf16Length head, String.ofList n.chars) ∈
      Pattern.matchesIn word (withoutComment (head ++ (n.chars ++ rest))) ↔ '#' ∉ head := by
  constructor
  · intro hmem hhash
    rw [withoutComment_append_of_mem hhash] at hmem
    have hlt := Pattern.lt_of_mem_matchesFrom hmem
    have hle := utf16Length_withoutComment_le head
    omega
  · intro hhash
    have hname : '#' ∉ n.chars := fun hc => absurd (n.isAsciiWord_of_mem hc) (by decide)
    rw [withoutComment_append_of_not_mem hhash, withoutComment_append_of_not_mem hname]
    have hfound : (0 + utf16Length head, String.ofList n.chars) ∈
        Pattern.matchesFrom word 0 none 0 (head ++ (n.chars ++ withoutComment rest)) :=
      mem_matchesFrom_word n (withoutComment_head_all hrest) (Nat.zero_le _)
        (by rwa [Option.or_none])
    rwa [Nat.zero_add] at hfound

/-! ## References of the lines -/

theorem mem_lineReferences {number offset : Nat} {line : List Char} {w : String}
    (himport : isImportLine line = false) (hkeyword : isKeyword w = false) :
    (⟨w, ⟨number, offset + 1⟩⟩ : Reference) ∈ lineReferences number line ↔
      (offset, w) ∈ Pattern.matchesIn word (withoutComment line) := by
  rw [lineReferences, himport]
  simp only [Bool.false_eq_true, if_false, List.mem_map, List.mem_filter, Prod.exists]
  constructor
  · rintro ⟨o, v, ⟨hmem, _⟩, heq⟩
    injection heq with hw hposition
    injection hposition with _ hcolumn
    obtain rfl : o = offset := by omega
    rwa [← hw]
  · intro hmem
    exact ⟨offset, w, ⟨hmem, by rw [hkeyword]; rfl⟩, rfl⟩

theorem line_of_mem_lineReferences {number : Nat} {line : List Char} {r : Reference}
    (h : r ∈ lineReferences number line) : r.position.line = number := by
  rw [lineReferences] at h
  split at h
  · cases h
  · obtain ⟨m, _, rfl⟩ := List.mem_map.mp h
    rfl

theorem le_of_mem_referencesFrom {number : Nat} {lines : List (List Char)} {r : Reference}
    (h : r ∈ referencesFrom number lines) : number ≤ r.position.line := by
  induction lines generalizing number with
  | nil => cases h
  | cons line lines ih =>
    rcases List.mem_append.mp h with h | h
    · exact (line_of_mem_lineReferences h).ge
    · have := ih h
      omega

/-- The references with the number of a line are those on the line. -/
theorem mem_referencesFrom {number i : Nat} {lines : List (List Char)} {line : List Char}
    {r : Reference} (hline : lines[i]? = some line) (hr : r.position.line = number + i) :
    r ∈ referencesFrom number lines ↔ r ∈ lineReferences (number + i) line := by
  induction lines generalizing number i with
  | nil => cases hline
  | cons first lines ih =>
    rw [referencesFrom, List.mem_append]
    cases i with
    | zero =>
      obtain rfl : first = line := by simpa using hline
      refine or_iff_left fun h => ?_
      have := le_of_mem_referencesFrom h
      omega
    | succ i =>
      have hnext : r.position.line = (number + 1 : Nat) + i := by omega
      rw [ih (by simpa using hline) hnext, Nat.add_right_comm number 1 i, Nat.add_assoc number i 1]
      refine or_iff_right fun h => ?_
      have := line_of_mem_lineReferences h
      omega

end Lines

/-! ## Both readings -/

/-- The line of a source with a given number, counted from one. -/
def lineAt (content : String) (number : Int) : List Char :=
  (splitAt '\n' content.toList).getD (number - 1).toNat []

/-- The word of a tree stands in a source of ASCII as a name, between characters that belong to no
word. -/
theorem Tree.IsWord.exists_name {content : String} {n : Tree} (h : n.IsWord content.toList)
    (hascii : ∀ c ∈ content.toList, c.toNat < 0x80) :
    ∃ (name : Name) (after : List Char),
      content.toList = content.toList.take n.start.offset ++ (name.chars ++ after) ∧
      n.chars = name.chars ∧
      (content.toList.take n.start.offset).getLast?.any isAsciiWord = false ∧
      after.head?.all (!isAsciiWord ·) = true := by
  have hne : wordOf n.start.rest ≠ [] := h.chars_eq ▸ h.chars_ne_nil
  have hrest := h.start_isIn.rest_eq
  have hasciiRest : ∀ c ∈ n.start.rest, c.toNat < 0x80 := fun c hc =>
    hascii c (List.mem_of_mem_drop (hrest ▸ hc))
  obtain ⟨name, hname⟩ : ∃ name : Name, name.chars = wordOf n.start.rest :=
    ⟨⟨_, isPlainName_wordOf hasciiRest hne⟩, rfl⟩
  have hafter := (List.take_append_drop name.chars.length n.start.rest).symm
  have htake : n.start.rest.take name.chars.length = name.chars := by rw [hname, take_wordOf]
  have hend : (n.start.rest.drop name.chars.length).head?.any isWordPart = false := by
    rw [hname, wordOf_eq hne, head?_drop_takeWhile]
  rw [htake] at hafter
  refine ⟨name, n.start.rest.drop name.chars.length, ?_, h.chars_eq.trans hname.symm, ?_, ?_⟩
  · rw [← hafter, hrest, List.take_append_drop]
  · cases hlast : (content.toList.take n.start.offset).getLast? with
    | none => rfl
    | some d =>
      have hd : d.toNat < 0x80 := hascii d (List.mem_of_mem_take (List.mem_of_getLast? hlast))
      obtain ⟨c, cs, hc, hstart⟩ := name.exists_cons
      have hpart : isWordPart c = true := by
        rw [isWordPart_of_ascii (toNat_of_isAsciiWord (isAsciiWord_of_start hstart))]
        exact isAsciiWord_of_start hstart
      have hapart := h.isApart_start
      rw [isApart, hlast, hafter, hc] at hapart
      rw [Option.any_some, ← isWordPart_of_ascii hd]
      simpa [hpart] using hapart
  · cases htail : n.start.rest.drop name.chars.length with
    | nil => rfl
    | cons c tail =>
      have hc : c.toNat < 0x80 := hasciiRest c (List.mem_of_mem_drop (htail ▸ List.mem_cons_self))
      rw [htail, List.head?_cons, Option.any_some, isWordPart_of_ascii hc] at hend
      rw [List.head?_cons, Option.all_some, hend]
      rfl

theorem getLast?_any_of_suffix {p : Char → Bool} {head before : List Char} (h : head <:+ before)
    (hbefore : before.getLast?.any p = false) : head.getLast?.any p = false := by
  obtain ⟨earlier, rfl⟩ := h
  cases hlast : head.getLast? with
  | none => rfl
  | some d => rwa [List.getLast?_append, hlast] at hbefore

theorem head?_all_of_prefix {p : Char → Bool} {tail after : List Char} (h : tail <+: after)
    (hafter : after.head?.all p = true) : tail.head?.all p = true := by
  obtain ⟨later, rfl⟩ := h
  cases tail with
  | nil => rfl
  | cons c tail => exact hafter

/-- So it stands on a line. -/
theorem Tree.IsWord.exists_line {content : String} {n : Tree} (h : n.IsWord content.toList)
    (hascii : ∀ c ∈ content.toList, c.toNat < 0x80) :
    ∃ (i : Nat) (name : Name) (head rest : List Char),
      (splitAt '\n' content.toList)[i]? = some (head ++ (name.chars ++ rest)) ∧
      n.position = ⟨i + 1, utf16Length head + 1⟩ ∧ utf16Length head = head.length ∧
      n.chars = name.chars ∧ head.getLast?.any isAsciiWord = false ∧
      rest.head?.all (!isAsciiWord ·) = true := by
  obtain ⟨name, after, hcontent, hchars, hbefore, hafter⟩ := h.exists_name hascii
  have hword : '\n' ∉ name.chars := fun hc => absurd (name.isAsciiWord_of_mem hc) (by decide)
  obtain ⟨i, head, tail, hline, hposition, hsuffix, hprefix⟩ :=
    exists_line_around hword (content.toList.take n.start.offset) after
  rw [← hcontent] at hline
  have hasciiHead : ∀ c ∈ head, c.toNat < 0x80 := fun c hc =>
    hascii c (List.mem_of_mem_take (hsuffix.subset hc))
  exact ⟨i, name, head, tail, hline, h.start_isIn.position_eq.trans hposition,
    utf16Length_of_ascii hasciiHead, hchars, getLast?_any_of_suffix hsuffix hbefore,
    head?_all_of_prefix hprefix hafter⟩

/-- What a tree reads on a line, but not on an import line, the lines of the source tell too, unless
the character that begins comments stands before it on its line. -/
theorem Tree.IsFaithful.mem_lines_iff {content : String} {tree : Tree} {r : Reference}
    (hfaithful : tree.IsFaithful content.toList) (hascii : ∀ c ∈ content.toList, c.toNat < 0x80)
    (hr : r ∈ tree.references) (himport : isImportLine (lineAt content r.position.line) = false)
    (hkeyword : isKeyword r.name = false) :
    r ∈ Lines.references content ↔
      '#' ∉ (lineAt content r.position.line).take (r.position.column - 1).toNat := by
  obtain ⟨n, hword, rfl⟩ := hfaithful.exists_word_of_mem_references hr
  obtain ⟨i, name, head, rest, hline, hposition, hlength, hchars, hhead, hrest⟩ :=
    hword.exists_line hascii
  have hlineAt : lineAt content n.position.line = head ++ (name.chars ++ rest) := by
    rw [lineAt, hposition, List.getD_eq_getElem?_getD]
    have hnumber : ((i : Int) + 1 - 1).toNat = i := by omega
    rw [hnumber, hline]
    rfl
  have hcolumn : (n.position.column - 1).toNat = head.length := by
    rw [hposition, hlength]
    show ((head.length : Int) + 1 - 1).toNat = head.length
    omega
  have hnumber : n.position.line = (1 : Nat) + i := by
    rw [hposition]
    exact Int.add_comm _ _
  have hplace : n.position = ⟨(1 + i : Nat), utf16Length head + 1⟩ := by
    rw [hposition, Int.add_comm]
    rfl
  dsimp only [Tree.reference] at himport hkeyword ⊢
  rw [hlineAt] at himport ⊢
  rw [hcolumn, List.take_left, Lines.references, mem_referencesFrom hline hnumber, hplace,
    mem_lineReferences himport hkeyword, Tree.text, hchars]
  exact mem_matchesIn_word_iff name hhead hrest

/-- What the tree of a source reads on a line, but not on an import line, the lines of the source
tell too, unless the character that begins comments stands before it on its line. -/
theorem mem_lines_references_iff {content : String} {tree : Tree} {r : Reference}
    (hascii : ∀ c ∈ content.toList, c.toNat < 0x80) (htree : syntaxTree content = .ok tree)
    (hr : r ∈ tree.references) (himport : isImportLine (lineAt content r.position.line) = false)
    (hkeyword : isKeyword r.name = false) :
    r ∈ Lines.references content ↔
      '#' ∉ (lineAt content r.position.line).take (r.position.column - 1).toNat :=
  (syntaxTree_reads htree).1.mem_lines_iff hascii hr himport hkeyword

/-- A string with the character that begins comments stands between two names; the lines tell the
first name only. -/
theorem mem_lines_references_aroundString :
    ∃ tree, syntaxTree "w = x + \"#\" + y" = .ok tree ∧
      tree.references = [⟨"x", ⟨1, 5⟩⟩, ⟨"y", ⟨1, 15⟩⟩] ∧
      ⟨"x", ⟨1, 5⟩⟩ ∈ Lines.references "w = x + \"#\" + y" ∧
      ⟨"y", ⟨1, 15⟩⟩ ∉ Lines.references "w = x + \"#\" + y" := by
  have hread : (syntaxTree "w = x + \"#\" + y").toOption.map Tree.references =
      some [⟨"x", ⟨1, 5⟩⟩, ⟨"y", ⟨1, 15⟩⟩] := by decide +kernel
  cases htree : syntaxTree "w = x + \"#\" + y" with
  | error problem =>
    rw [htree] at hread
    cases hread
  | ok tree =>
    rw [htree] at hread
    have hrefs : tree.references = [⟨"x", ⟨1, 5⟩⟩, ⟨"y", ⟨1, 15⟩⟩] := Option.some.inj hread
    have hiff {r : Reference} (hr : r ∈ tree.references)
        (hline : isImportLine (lineAt "w = x + \"#\" + y" r.position.line) = false)
        (hkeyword : isKeyword r.name = false) :=
      mem_lines_references_iff (by simp) htree hr hline hkeyword
    refine ⟨tree, rfl, hrefs, ?_, ?_⟩
    · exact (hiff (by simp [hrefs]) (by decide +kernel) (by decide +kernel)).mpr (by decide +kernel)
    · intro hmem
      exact absurd ((hiff (by simp [hrefs]) (by decide +kernel) (by decide +kernel)).mp hmem)
        (by decide +kernel)

/-- Not every reference that the tree of a source reads, apart from those on import lines, is one
that the lines tell: a string may hold the character that begins comments. -/
theorem not_forall_mem_lines_references :
    ¬ ∀ (content : String) (tree : Tree) (r : Reference), (∀ c ∈ content.toList, c.toNat < 0x80) →
      syntaxTree content = .ok tree → r ∈ tree.references →
      isImportLine (lineAt content r.position.line) = false → isKeyword r.name = false →
      r ∈ Lines.references content := by
  intro h
  have hread : (syntaxTree "x = \"#\" + y").toOption.map Tree.references =
      some [⟨"y", ⟨1, 11⟩⟩] := by decide +kernel
  cases htree : syntaxTree "x = \"#\" + y" with
  | error problem =>
    rw [htree] at hread
    cases hread
  | ok tree =>
    rw [htree] at hread
    have hrefs : tree.references = [⟨"y", ⟨1, 11⟩⟩] := Option.some.inj hread
    have hmem := h "x = \"#\" + y" tree ⟨"y", ⟨1, 11⟩⟩ (by simp) htree (by simp [hrefs])
      (by decide +kernel) (by decide +kernel)
    exact absurd hmem (by decide +kernel)

end SymbolAtlas.Python
