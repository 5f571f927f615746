import SymbolAtlas.Proofs.Token.LineJoin
import SymbolAtlas.Proofs.Token.Place

/-! # What stands around a token

The scanner reads each token off the source at one place, and what it reads there depends on the
token before it: in the list of the source, or in that of the one interpolation in which the token
stands. So a statement about a token, what precedes it in its list and what follows it in the
source is one about the lexeme at the head of a text.
-/

namespace SymbolAtlas

namespace Token

structure StandsBetween (source : String) (t : Token) (left right : List Char) : Prop where
  source_eq : source.toList = left ++ (t.text.toList ++ right)
  position_eq : t.position = Position.start.after left

/-- A token stands at one place of a source only. -/
theorem StandsBetween.unique {source : String} {t : Token} {left right left' right' : List Char}
    (h : StandsBetween source t left right) (h' : StandsBetween source t left' right') :
    left = left' ∧ right = right' := by
  have hsource := h.source_eq.symm.trans h'.source_eq
  obtain rfl := Position.eq_of_after_eq hsource (h.position_eq.symm.trans h'.position_eq)
  exact ⟨rfl, List.append_cancel_left (List.append_cancel_left hsource)⟩

/-- A token that is read off the text at a cursor stands there. -/
theorem StandsBetween.of_isIn {source : String} {c : Cursor} {t : Token} {right : List Char}
    (hc : c.IsIn source.toList) (hposition : t.position = c.position)
    (hrest : c.rest = t.text.toList ++ right) :
    StandsBetween source t (source.toList.take c.offset) right where
  source_eq := by rw [← hrest, hc.rest_eq, List.take_append_drop]
  position_eq := by rw [hposition, hc.position_eq]

/-- A list of tokens that are scanned one after the other: those of the source, or those of one
interpolation of a template literal in such a list. -/
inductive Scanned (source : String) : List Token → Prop
  | source : Scanned source (tokenize source)
  | interpolation {l group : List Token} {t : Token} {groups : List (List Token)}
      {isClosed : Bool} (h : Scanned source l) (ht : t ∈ l)
      (hliteral : IsLiteral source.toList t groups isClosed) (hgroup : group ∈ groups) :
      Scanned source group

/-- Every token of a source, at every depth, is scanned in one of these lists. -/
theorem Layer.exists_scanned {source : String} {l : List Token} {t : Token}
    (h : Layer (tokenize source) l) (ht : t ∈ l) : ∃ group, Scanned source group ∧ t ∈ group := by
  induction h generalizing t with
  | outer => exact ⟨_, .source, ht⟩
  | inner h hmem ih =>
    obtain ⟨l, hl, hmem'⟩ := ih hmem
    obtain ⟨groups, isClosed, hliteral⟩ := h.exists_isLiteral hmem
    rw [hliteral.inside_eq] at ht
    obtain ⟨group, hgroup, ht⟩ := List.mem_flatten.mp ht
    exact ⟨group, .interpolation hl hmem' hliteral hgroup, ht⟩

theorem Scanned.exists_code {source : String} {l : List Token} (h : Scanned source l) :
    ∃ nesting c stop, c.IsIn source.toList ∧ Scan.Code nesting none c l stop := by
  cases h with
  | source =>
    obtain ⟨stop, reading⟩ := tokenize_reads source
    exact ⟨_, _, stop, Scan.codeStart_isIn source.toList, reading⟩
  | interpolation _ _ hliteral hgroup =>
    obtain ⟨c, last, hc, _, body, _⟩ := hliteral
    obtain ⟨start, stop, hstart, code⟩ := body.code_of_mem (hc.advance 1) hgroup
    exact ⟨_, start, stop, hstart, code⟩

end Token

namespace Scan

open Token

/-- After the token `previous`, the token is read off the text at the cursor: a lexeme, or a
template literal with its body. -/
inductive ReadAt (previous : Option Token) (c : Cursor) : Token → Prop
  | lexeme {ch : Char} {cs : List Char} {kind : Kind} {n : Nat} (hc : c.rest = ch :: cs)
      (hhead : headAfter previous ch cs = .token kind n) :
      ReadAt previous c (tokenBetween kind c (c.advance n))
  | literal {last : Cursor} {groups : List (List Token)} {isClosed : Bool}
      (hquote : c.rest.head? = some '\x60') (body : Template (c.advance 1) groups last isClosed) :
      ReadAt previous c (literalBetween c last groups)

/-- Each token of a reading is read off the text after the one before it. -/
theorem Code.readAt {source : List Char} {nesting : Nesting} {previous : Option Token}
    {c stop : Cursor} {ts before after : List Token} {t : Token} :
    Code nesting previous c ts stop → c.IsIn source → ts = before ++ t :: after →
      ∃ d, d.IsIn source ∧ ReadAt (before.getLast?.or previous) d t
  | .done _, _, hts => absurd hts (by simp)
  | .gap _ _ next, h, hts => next.readAt (h.advance _) hts
  | .closing _ _ _, _, hts => absurd hts (by simp)
  | .token hc hhead _ next, h, hts => by
    cases before with
    | nil =>
      cases hts
      exact ⟨_, h, .lexeme hc hhead⟩
    | cons u before =>
      obtain ⟨hu, hts⟩ := List.cons.inj hts
      rw [getLast?_cons_or, ← hu]
      exact next.readAt (h.advance _) hts
  | .literal hc hhead body next, h, hts => by
    cases before with
    | nil =>
      cases hts
      exact ⟨_, h, .literal (by rw [hc, Lexeme.eq_of_head_eq_backquote hhead]; rfl) body⟩
    | cons u before =>
      obtain ⟨hu, hts⟩ := List.cons.inj hts
      rw [getLast?_cons_or, ← hu]
      exact next.readAt ((h.advance 1).reaches body.reaches) hts

theorem ReadAt.exists_rest {previous : Option Token} {c : Cursor} {t : Token}
    (h : ReadAt previous c t) :
    t.position = c.position ∧ ∃ right, c.rest = t.text.toList ++ right := by
  cases h with
  | @lexeme _ _ _ n _ _ =>
    refine ⟨rfl, (c.advance n).rest, ?_⟩
    rw [tokenBetween, text, String.toList_ofList]
    exact (Cursor.Reaches.advance c n).rest_eq
  | @literal last _ _ _ body =>
    refine ⟨rfl, last.rest, ?_⟩
    rw [literalBetween, text, String.toList_ofList]
    exact (Cursor.Reaches.of_advance body.reaches).rest_eq

/-- A token other than a template literal is a lexeme at the head of the text. -/
theorem ReadAt.exists_head {previous : Option Token} {c : Cursor} {t : Token} {right : List Char}
    {kind : Kind} (h : ReadAt previous c t) (hrest : c.rest = t.text.toList ++ right)
    (hkind : t.hasKind kind = true) :
    ∃ ch cs n, t.text.toList ++ right = ch :: cs ∧ headAfter previous ch cs = .token kind n ∧
      t.text.toList = (ch :: cs).take n ∧ right = (ch :: cs).drop n := by
  cases h with
  | @lexeme ch cs kind' n hc hhead =>
    rw [tokenBetween, hasKind_plain, decide_eq_true_eq] at hkind
    have htext : (tokenBetween kind' c (c.advance n)).text.toList = (ch :: cs).take n := by
      rw [tokenBetween, text, String.toList_ofList, Cursor.slice_advance, hc]
    have hright : right = (ch :: cs).drop n := by
      rw [htext, hc, ← List.take_append_drop n (ch :: cs), List.take_append_drop] at hrest
      exact List.append_cancel_left (hrest.symm.trans (List.take_append_drop n _).symm)
    exact ⟨ch, cs, n, hrest.symm.trans hc, hkind ▸ hhead, htext, hright⟩
  | literal => cases hkind

end Scan

namespace Token

/-- Each token is read off what follows the text before it, after its predecessor in the list. -/
theorem Scanned.exists_readAt {source : String} {before after : List Token} {t : Token}
    (h : Scanned source (before ++ t :: after)) :
    ∃ left right c, StandsBetween source t left right ∧ c.rest = t.text.toList ++ right ∧
      Scan.ReadAt before.getLast? c t := by
  obtain ⟨nesting, start, stop, hstart, code⟩ := h.exists_code
  obtain ⟨c, hc, hread⟩ := code.readAt hstart rfl
  rw [Option.or_none] at hread
  obtain ⟨hposition, right, hrest⟩ := hread.exists_rest
  exact ⟨_, right, c, .of_isIn hc hposition hrest, hrest, hread⟩

theorem Layer.exists_readAt {source : String} {l : List Token} {t : Token}
    (h : Layer (tokenize source) l) (ht : t ∈ l) :
    ∃ left right previous c, StandsBetween source t left right ∧
      c.rest = t.text.toList ++ right ∧ Scan.ReadAt previous c t := by
  obtain ⟨group, hgroup, ht⟩ := h.exists_scanned ht
  obtain ⟨before, after, rfl⟩ := List.append_of_mem ht
  obtain ⟨left, right, c, hstands, hrest, hread⟩ := hgroup.exists_readAt
  exact ⟨left, right, _, c, hstands, hrest, hread⟩

end Token

end SymbolAtlas
