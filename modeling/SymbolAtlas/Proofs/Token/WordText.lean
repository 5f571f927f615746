import SymbolAtlas.Proofs.Text.Identifier
import SymbolAtlas.Proofs.Token.Category
import SymbolAtlas.Proofs.Token.Rescan
import SymbolAtlas.Proofs.Token.Written

/-! # Words written again

The text of a word of a source, reserved or not, in whatever characters, is scanned as this word
wherever it is written before something that cannot continue a name.
-/

namespace SymbolAtlas

open Lexeme Written

/-- The text is scanned as one word before whatever cannot continue a name. -/
def IsWordText (s : String) : Prop :=
  ∃ c cs, s.toList = c :: cs ∧ ∀ regexMayStart rest, stopsName rest = true →
    head regexMayStart c (cs ++ rest) = .token (nameKind s.toList) (cs.length + 1)

theorem IsWordText.legible {s : String} {blanks rest : List Char} (h : IsWordText s)
    (hblanks : blanks.all isGap = true) (hrest : stopsName (blanks ++ rest) = true) :
    (word s blanks).Legible rest := by
  obtain ⟨c, cs, htext, hhead⟩ := h
  exact ⟨⟨c, cs, htext, fun regexMayStart => hhead regexMayStart _ hrest⟩, hblanks⟩

namespace Lexeme

theorem afterSlash_ne_word {kind : Token.Kind} (hkind : kind = .keyword ∨ kind = .identifier)
    (regexMayStart : Bool) (cs : List Char) (n : Nat) :
    afterSlash regexMayStart cs ≠ .token kind n := by
  rcases hkind with rfl | rfl <;>
  · unfold afterSlash
    split
    · exact Lexeme.noConfusion
    · exact Lexeme.noConfusion
    · split <;> simp

/-- What can follow the sign of a private name is the first character of a name's tail. -/
theorem any_isNameStart_takeWhile {cs rest : List Char} (h : cs.head?.any isNameStart = true) :
    (cs.takeWhile isNamePart ++ rest).head?.any isNameStart = true := by
  cases cs with
  | nil => cases h
  | cons d cs =>
    have hd : isNameStart d = true := by simpa using h
    rw [List.takeWhile_cons_of_pos (isNamePart_of_isNameStart hd)]
    simpa using hd

/-- A word is as long as its characters go on, and what stands behind it has no other part in what
is scanned. -/
theorem head_word {regexMayStart : Bool} {c : Char} {cs : List Char} {kind : Token.Kind} {n : Nat}
    (h : head regexMayStart c cs = .token kind n) (hkind : kind = .keyword ∨ kind = .identifier) :
    kind = nameKind (c :: cs.takeWhile isNamePart) ∧ n = 1 + (cs.takeWhile isNamePart).length ∧
      ∀ regexMayStart rest, stopsName rest = true →
        head regexMayStart c (cs.takeWhile isNamePart ++ rest) =
          .token kind ((cs.takeWhile isNamePart).length + 1) := by
  unfold head at h
  split at h
  · cases h
  next hgap =>
  split at h
  · exact absurd h (afterSlash_ne_word hkind _ _ _)
  next hslash =>
  split at h
  · rcases hkind with rfl | rfl <;> cases h
  next hquote =>
  split at h
  · cases h
  next hback =>
  split at h
  · next hname =>
    obtain ⟨rfl, rfl⟩ := Lexeme.token.inj h
    refine ⟨rfl, rfl, fun regexMayStart rest hrest => ?_⟩
    have hparts : ∀ d ∈ cs.takeWhile isNamePart, isNamePart d = true :=
      List.all_eq_true.mp List.all_takeWhile
    have hstart : (isNameStart c ||
        c == '#' && (cs.takeWhile isNamePart ++ rest).head?.any isNameStart) = true := by
      rw [Bool.or_eq_true, Bool.and_eq_true] at hname ⊢
      exact hname.imp_right (And.imp_right any_isNameStart_takeWhile)
    unfold head
    rw [if_neg hgap, if_neg hslash, if_neg hquote, if_neg hback, if_pos hstart,
      takeWhile_of_stopsName hparts hrest, Nat.add_comm]
  split at h
  · rcases hkind with rfl | rfl <;> cases h
  split at h
  · rcases hkind with rfl | rfl <;> cases h
  split at h
  · rcases hkind with rfl | rfl <;> cases h
  · cases h

end Lexeme

namespace Token

/-- A word of a source is the token of its text, which is scanned as a word. -/
theorem Layer.isWordText {source : String} {l : List Token} {t : Token}
    (h : Layer (tokenize source) l) (ht : t ∈ l) (hword : t.isWord = true) :
    t = nameAt t.position t.text ∧ IsWordText t.text := by
  obtain ⟨_, _, _, _, _, reading, ht⟩ := h.exists_code ht
  rcases reading.exists_of_mem ht with
    ⟨_, c, ch, cs, kind, n, hc, hhead, rfl⟩ | ⟨_, _, _, _, _, _, rfl⟩
  · have hkind : kind = .keyword ∨ kind = .identifier := by
      simpa [Scan.tokenBetween] using hword
    obtain ⟨hname, rfl, hread⟩ := Lexeme.head_word hhead hkind
    have htext : (Scan.tokenBetween kind c
        (c.advance (1 + (cs.takeWhile isNamePart).length))).text.toList =
          ch :: cs.takeWhile isNamePart := by
      rw [Scan.tokenBetween, text, String.toList_ofList, Cursor.slice_advance, hc, Nat.add_comm,
        List.take_succ_cons, ← List.prefix_iff_eq_take.mp (List.takeWhile_prefix isNamePart)]
    refine ⟨?_, ch, _, htext, fun regexMayStart rest hrest => ?_⟩
    · rw [nameAt, htext, ← hname]
      rfl
    · rw [htext, ← hname]
      exact hread regexMayStart rest hrest
  · cases hword

/-- An identifier of a source is no reserved word. -/
theorem Layer.isReserved_eq_false {source : String} {l : List Token} {t : Token}
    (h : Layer (tokenize source) l) (ht : t ∈ l) (hkind : t.hasKind .identifier = true) :
    Vocabulary.isReserved t.text = false := by
  have hword : t.isWord = true := by rw [isWord, hkind, Bool.or_true]
  rw [(h.isWordText ht hword).1, nameAt, hasKind_plain, decide_eq_true_eq, Lexeme.nameKind,
    String.ofList_toList] at hkind
  split at hkind
  · cases hkind
  · next hreserved => exact Bool.eq_false_iff.mpr hreserved

end Token

end SymbolAtlas
