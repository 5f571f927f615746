import SymbolAtlas.Proofs.Token.Written
import SymbolAtlas.Python.Lexeme
import SymbolAtlas.Python.Lines.Declarations

/-! # Words in ASCII

Below U+0080 the words of a source are made of ASCII letters, digits and underscores, and a word
ends where something else follows.
-/

namespace SymbolAtlas.Python

open Identifier

/-- What holds of the characters at the code points below U+0080 holds of every such character. -/
theorem forall_ascii {P : Char → Prop} (h : ∀ n < 0x80, P (Char.ofNat n)) {c : Char}
    (hc : c.toNat < 0x80) : P c := by
  have := h c.toNat hc
  rwa [Char.ofNat_toNat] at this

theorem isWordStart_of_ascii {c : Char} (h : c.toNat < 0x80) :
    isWordStart c = isAsciiWordStart c :=
  forall_ascii (P := fun c => isWordStart c = isAsciiWordStart c) (by decide +kernel) h

theorem isWordPart_of_ascii {c : Char} (h : c.toNat < 0x80) : isWordPart c = isAsciiWord c :=
  forall_ascii (P := fun c => isWordPart c = isAsciiWord c) (by decide +kernel) h

theorem toNat_of_isAsciiWord {c : Char} (h : isAsciiWord c = true) : c.toNat < 0x80 :=
  toNat_of_isAsciiNamePart (by rw [isAsciiNamePart, h, Bool.true_or])

theorem isAsciiWord_of_start {c : Char} (h : isAsciiWordStart c = true) :
    isAsciiWord c = true := by
  simp only [isAsciiWordStart, isAsciiWord, Bool.or_eq_true] at h ⊢
  rcases h with h | h
  · exact .inl (.inl h)
  · exact .inr h

/-- A run of characters of a class is all that such a run takes if none of the class follows. -/
theorem takeWhile_append_eq {isPart : Char → Bool} {w rest : List Char}
    (hw : ∀ c ∈ w, isPart c = true) (hrest : rest.head?.all (!isPart ·) = true) :
    (w ++ rest).takeWhile isPart = w := by
  rw [List.takeWhile_append_of_pos hw]
  cases rest with
  | nil => rw [List.takeWhile_nil, List.append_nil]
  | cons c rest =>
    have hc : ¬ isPart c = true := by simpa using hrest
    rw [List.takeWhile_cons_of_neg hc, List.append_nil]

/-! ## Names -/

/-- Whether a text is a name in ASCII. It may be a word of the language. -/
def isPlainName : List Char → Bool
  | [] => false
  | c :: cs => isAsciiWordStart c && cs.all isAsciiWord

/-- A name in ASCII. -/
structure Name where
  chars : List Char
  isPlain : isPlainName chars = true
  deriving DecidableEq

namespace Name

variable (n : Name)

theorem exists_cons : ∃ c cs, n.chars = c :: cs ∧ isAsciiWordStart c = true := by
  obtain ⟨chars, h⟩ := n
  cases chars with
  | nil => cases h
  | cons c cs =>
    simp only [isPlainName, Bool.and_eq_true] at h
    exact ⟨c, cs, rfl, h.1⟩

theorem chars_ne_nil : n.chars ≠ [] := by
  obtain ⟨c, cs, h, _⟩ := n.exists_cons
  rw [h]
  exact List.cons_ne_nil c cs

theorem isAsciiWord_of_mem {d : Char} (h : d ∈ n.chars) : isAsciiWord d = true := by
  obtain ⟨chars, hplain⟩ := n
  cases chars with
  | nil => cases h
  | cons c cs =>
    simp only [isPlainName, Bool.and_eq_true, List.all_eq_true] at hplain
    rcases List.mem_cons.mp h with rfl | h
    · exact isAsciiWord_of_start hplain.1
    · exact hplain.2 d h

/-- A name is read off a text in which nothing follows that could continue it. -/
theorem wordOf_append {rest : List Char} (hrest : rest.head?.all (!isWordPart ·) = true) :
    wordOf (n.chars ++ rest) = n.chars := by
  have hstart : (n.chars ++ rest).head?.any isWordStart = true := by
    obtain ⟨c, cs, h, hc⟩ := n.exists_cons
    simp [h, isWordStart_of_ascii (toNat_of_isAsciiWord (isAsciiWord_of_start hc)), hc]
  have hparts (d : Char) (hd : d ∈ n.chars) : isWordPart d = true := by
    have hd := n.isAsciiWord_of_mem hd
    rw [isWordPart_of_ascii (toNat_of_isAsciiWord hd), hd]
  rw [wordOf, if_pos hstart, takeWhile_append_eq hparts hrest]

end Name

theorem nameAhead_name (n : Name) {rest : List Char}
    (hrest : rest.head?.all (!isAsciiWord ·) = true) :
    Lines.nameAhead (n.chars ++ rest) = some n.chars := by
  have hword : (n.chars ++ rest).takeWhile isAsciiWord = n.chars :=
    takeWhile_append_eq (fun c hc => n.isAsciiWord_of_mem hc) hrest
  obtain ⟨c, cs, h, hc⟩ := n.exists_cons
  rw [h, List.cons_append] at hword ⊢
  rw [Lines.nameAhead, hword, if_pos hc]

end SymbolAtlas.Python
