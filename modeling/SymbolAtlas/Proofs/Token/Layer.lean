import SymbolAtlas.Proofs.Token.Reading

/-! # Token lists at every depth

The tokens of a template literal's interpolations form a token list of their own, inside the list
in which the literal stands. Each template literal, however deep, is one that the scanner has read
at some place of the source, interpolation by interpolation.
-/

namespace SymbolAtlas

namespace Token

/-- `l` is the token list `ts`, or the interpolation tokens of a template literal that stands in
it at any depth. -/
inductive Layer (ts : List Token) : List Token → Prop
  | outer : Layer ts ts
  | inner {l inside : List Token} {p : Position} {s : String} (h : Layer ts l)
      (hmem : .template p s inside ∈ l) : Layer ts inside

/-- The scanner reads the template literal `t` somewhere in the source; `groups` are the tokens of
its interpolations, each as scanned inside its own braces. -/
def IsLiteral (source : List Char) (t : Token) (groups : List (List Token)) (isClosed : Bool) :
    Prop :=
  ∃ c last, c.IsIn source ∧ c.rest.head? = some '\x60' ∧
    Scan.Template (c.advance 1) groups last isClosed ∧ t = Scan.literalBetween c last groups

theorem IsLiteral.inside_eq {source : List Char} {p : Position} {s : String}
    {inside : List Token} {groups : List (List Token)} {isClosed : Bool}
    (h : IsLiteral source (.template p s inside) groups isClosed) : inside = groups.flatten := by
  obtain ⟨c, last, _, _, _, ht⟩ := h
  cases ht
  rfl

end Token

namespace Scan

open Token

theorem Code.isLiteral_of_mem {source : List Char} {nesting : Nesting} {previous : Option Token}
    {c stop : Cursor} {ts : List Token} {p : Position} {s : String} {inside : List Token} :
    Code nesting previous c ts stop → c.IsIn source → .template p s inside ∈ ts →
      ∃ groups isClosed, IsLiteral source (.template p s inside) groups isClosed
  | .done _, _, ht => absurd ht List.not_mem_nil
  | .gap _ _ next, h, ht => next.isLiteral_of_mem (h.advance _) ht
  | .closing _ _ _, _, ht => absurd ht List.not_mem_nil
  | .token _ _ _ next, h, ht => by
    rcases List.mem_cons.mp ht with heq | ht
    · exact Token.noConfusion heq
    · exact next.isLiteral_of_mem (h.advance _) ht
  | .literal hc hhead body next, h, ht => by
    rcases List.mem_cons.mp ht with heq | ht
    · have hquote := Lexeme.eq_of_head_eq_backquote hhead
      exact ⟨_, _, c, _, h, by rw [hc, hquote]; rfl, body, heq⟩
    · exact next.isLiteral_of_mem ((h.advance 1).reaches body.reaches) ht

theorem Template.code_of_mem {source : List Char} {c stop : Cursor} {groups : List (List Token)}
    {isClosed : Bool} {group : List Token} :
    Template c groups stop isClosed → c.IsIn source → group ∈ groups →
      ∃ start last, start.IsIn source ∧ Code (.inside 0) none start group last
  | .unclosed _, _, hg => absurd hg List.not_mem_nil
  | .escape _ next, h, hg => next.code_of_mem (h.advance 2) hg
  | .closed _, _, hg => absurd hg List.not_mem_nil
  | .interpolation _ code next, h, hg => by
    rcases List.mem_cons.mp hg with rfl | hg
    · exact ⟨_, _, h.advance 2, code⟩
    · exact next.code_of_mem ((h.advance 2).reaches code.reaches) hg
  | .text _ _ _ _ next, h, hg => next.code_of_mem (h.advance 1) hg

end Scan

namespace Token

/-- Every template literal of a source, at every depth, is one that the scanner reads. -/
theorem Layer.exists_isLiteral {source : String} {l : List Token}
    (h : Layer (tokenize source) l) {p : Position} {s : String} {inside : List Token}
    (ht : .template p s inside ∈ l) :
    ∃ groups isClosed, IsLiteral source.toList (.template p s inside) groups isClosed := by
  induction h generalizing p s inside with
  | outer =>
    obtain ⟨stop, reading⟩ := tokenize_reads source
    exact reading.isLiteral_of_mem (Scan.codeStart_isIn source.toList) ht
  | inner h hmem ih =>
    obtain ⟨groups, isClosed, hliteral⟩ := ih hmem
    rw [hliteral.inside_eq] at ht
    obtain ⟨c, last, hc, _, body, _⟩ := hliteral
    obtain ⟨group, hgroup, ht⟩ := List.mem_flatten.mp ht
    obtain ⟨start, stop, hstart, code⟩ := body.code_of_mem (hc.advance 1) hgroup
    exact code.isLiteral_of_mem hstart ht

theorem isLiteral_of_backquote {source : List Char} {c : Cursor} (hc : c.IsIn source)
    (hquote : c.rest.head? = some '\x60') :
    ∃ isClosed, IsLiteral source
      (Scan.literalBetween c (Scan.template c.rest.length (c.advance 1)).2
        (Scan.template c.rest.length (c.advance 1)).1)
      (Scan.template c.rest.length (c.advance 1)).1 isClosed := by
  have hlength : (c.advance 1).rest.length < c.rest.length := by
    cases hrest : c.rest with
    | nil => rw [hrest] at hquote; cases hquote
    | cons ch cs => exact hrest ▸ Cursor.advance_rest_length_lt Nat.one_pos hrest
  obtain ⟨isClosed, body⟩ := (Scan.code_reads c.rest.length).2 (c.advance 1) hlength
  exact ⟨isClosed, c, _, hc, hquote, body, rfl⟩

end Token

end SymbolAtlas
