import SymbolAtlas.Proofs.Token.Locality

/-! # Readings at another place

A text is read in the same way wherever it stands and whatever follows it: moved to another place,
and cut off where its reading ends, it gives the same tokens, and only their positions change.

The readings of two texts are compared step by step: `Scan.Simulation` says what one step needs of
the places it relates, and then a whole reading of one text is a reading of the other.
-/

namespace SymbolAtlas

open Identifier

namespace Token

mutual

def move (f : Position → Position) : Token → Token
  | plain kind p s => plain kind (f p) s
  | template p s inside => template (f p) s (moveAll f inside)

def moveAll (f : Position → Position) : List Token → List Token
  | [] => []
  | t :: ts => t.move f :: moveAll f ts

end

variable (f : Position → Position)

mutual

theorem move_id : ∀ t : Token, t.move id = t
  | plain _ _ _ => rfl
  | template p s inside => by rw [move, moveAll_id inside, id]

theorem moveAll_id : ∀ ts : List Token, moveAll id ts = ts
  | [] => rfl
  | t :: ts => by rw [moveAll, move_id t, moveAll_id ts]

end

theorem moveAll_eq_map (ts : List Token) : moveAll f ts = ts.map (move f) := by
  induction ts with
  | nil => rfl
  | cons t ts ih => rw [moveAll, ih, List.map_cons]

@[simp] theorem map_move_id (ts : List Token) : ts.map (move id) = ts := by
  rw [← moveAll_eq_map, moveAll_id]

@[simp] theorem move_plain (kind : Kind) (p : Position) (s : String) :
    (plain kind p s).move f = plain kind (f p) s := by
  rw [move]

@[simp] theorem move_template (p : Position) (s : String) (inside : List Token) :
    (template p s inside).move f = template (f p) s (inside.map (move f)) := by
  rw [move, moveAll_eq_map]

@[simp] theorem text_move (t : Token) : (t.move f).text = t.text := by
  cases t with
  | plain kind p s => rw [move_plain]; rfl
  | template p s inside => rw [move_template]; rfl

@[simp] theorem hasKind_move (t : Token) (k : Kind) : (t.move f).hasKind k = t.hasKind k := by
  cases t with
  | plain kind p s => rw [move_plain]; rfl
  | template p s inside => rw [move_template]; rfl

@[simp] theorem mayPrecedeRegex_move (t : Token) :
    (t.move f).mayPrecedeRegex = t.mayPrecedeRegex := by
  rw [mayPrecedeRegex, mayPrecedeRegex, hasKind_move, hasKind_move, text_move]

end Token

/-! ## Texts that are read alike -/

namespace Scan

open Token

/-- `R` relates places of two texts which are read alike as far as at least `left` characters of the
first one are still to come; the positions of the tokens change by `f`. -/
structure Simulation (f : Position → Position) (left : Nat) (R : Cursor → Cursor → Prop) :
    Prop where
  position_eq {c d : Cursor} (h : R c d) : d.position = f c.position
  advance {c d : Cursor} {n : Nat} (h : R c d) (hn : left ≤ (c.advance n).rest.length) :
    R (c.advance n) (d.advance n)
  take_eq {c d : Cursor} {n : Nat} (h : R c d) (hn : left ≤ (c.advance n).rest.length) :
    d.rest.take n = c.rest.take n
  slice_eq {c d stop last : Cursor} (h : R c d) (hlast : R stop last) (hc : c.Reaches stop)
    (hd : d.Reaches last) : d.slice last = c.slice stop
  done {c d : Cursor} (h : R c d) (hleft : left ≤ c.rest.length) (hc : c.rest = []) : d.rest = []
  headAfter_eq {c d : Cursor} {previous : Option Token} {ch : Char} {cs : List Char} (h : R c d)
    (hc : c.rest = ch :: cs) (hn : left ≤ (c.advance (headAfter previous ch cs).length).rest.length) :
    ∃ ds, d.rest = ch :: ds ∧ headAfter previous ch ds = headAfter previous ch cs
  opens {c d : Cursor} {ch : Char} {cs ds : List Char} (h : R c d) (hc : c.rest = ch :: cs)
    (hd : d.rest = ch :: ds) (hn : left ≤ (c.advance 1).rest.length)
    (hopen : ds.head? = some '\x7b') : cs.head? = some '\x7b'

section Simulation

variable {f : Position → Position} {left n : Nat} {R : Cursor → Cursor → Prop}
  {c d stop last : Cursor} {previous previous' : Option Token} {ch : Char} {cs : List Char}

namespace Simulation

variable (S : Simulation f left R)

include S

theorem exists_cons (h : R c d) (hc : c.rest = ch :: cs)
    (hn : left ≤ (c.advance (n + 1)).rest.length) :
    ∃ ds, d.rest = ch :: ds ∧ ds.take n = cs.take n := by
  have htake := S.take_eq h hn
  rw [hc, List.take_succ_cons] at htake
  cases hd : d.rest with
  | nil =>
    rw [hd] at htake
    cases htake
  | cons e ds =>
    rw [hd, List.take_succ_cons] at htake
    obtain ⟨rfl, htail⟩ := List.cons.inj htake
    exact ⟨ds, rfl, htail⟩

/-- The same lexeme stands at both places, also after another token that goes before a regular
expression or not as the first one does. -/
theorem head_eq {lexeme : Lexeme} (h : R c d) (hc : c.rest = ch :: cs)
    (hhead : headAfter previous ch cs = lexeme)
    (hprevious : previous'.all mayPrecedeRegex = previous.all mayPrecedeRegex)
    (hn : left ≤ (c.advance lexeme.length).rest.length) :
    ∃ ds, d.rest = ch :: ds ∧ headAfter previous' ch ds = lexeme := by
  obtain ⟨ds, hds, heq⟩ := S.headAfter_eq h hc (hhead ▸ hn)
  refine ⟨ds, hds, ?_⟩
  rw [headAfter, hprevious]
  exact heq.trans hhead

theorem tokenBetween_eq (h : R c d) (hn : left ≤ (c.advance n).rest.length) (kind : Kind) :
    tokenBetween kind d (d.advance n) = (tokenBetween kind c (c.advance n)).move f := by
  rw [tokenBetween, tokenBetween, Token.move_plain, S.position_eq h,
    S.slice_eq h (S.advance h hn) (.advance c n) (.advance d n)]

theorem literalBetween_eq (h : R c d) (hlast : R stop last) (hc : c.Reaches stop)
    (hd : d.Reaches last) (groups : List (List Token)) :
    literalBetween d last (groups.map (·.map (move f))) =
      (literalBetween c stop groups).move f := by
  rw [literalBetween, literalBetween, Token.move_template, S.slice_eq h hlast hc hd,
    S.position_eq h, List.map_flatten]

end Simulation

theorem all_move {t u : Token} (h : u = t.move f) :
    (some u).all mayPrecedeRegex = (some t).all mayPrecedeRegex := by
  rw [h, Option.all_some, Option.all_some, mayPrecedeRegex_move]

mutual

/-- Code of one text is read in the same way in the other. -/
theorem Code.simulated {nesting : Nesting} {previous previous' : Option Token} {c stop d : Cursor}
    {ts : List Token} (reading : Code nesting previous c ts stop) (S : Simulation f left R)
    (h : R c d) (hstop : left ≤ stop.rest.length)
    (hprevious : previous'.all mayPrecedeRegex = previous.all mayPrecedeRegex) :
    ∃ last, Code nesting previous' d (ts.map (move f)) last ∧ R stop last := by
  match reading with
  | .done hc => exact ⟨d, .done (S.done h hstop hc), h⟩
  | .gap hc hhead next =>
    have hn := Nat.le_trans hstop next.reaches.rest_length_le
    obtain ⟨ds, hds, hhead'⟩ := S.head_eq h hc hhead hprevious hn
    obtain ⟨last, hnext, hlast⟩ := next.simulated S (S.advance h hn) hstop hprevious
    exact ⟨last, .gap hds hhead' hnext, hlast⟩
  | .closing hc hhead hnest =>
    obtain ⟨ds, hds, hhead'⟩ := S.head_eq h hc hhead hprevious hstop
    exact ⟨_, .closing hds hhead' hnest, S.advance h hstop⟩
  | @Code.token _ _ _ _ _ _ _ kind _ _ hc hhead hnest next =>
    have hn := Nat.le_trans hstop next.reaches.rest_length_le
    obtain ⟨ds, hds, hhead'⟩ := S.head_eq h hc hhead hprevious hn
    have htoken := S.tokenBetween_eq h hn kind
    obtain ⟨last, hnext, hlast⟩ := next.simulated S (S.advance h hn) hstop (all_move htoken)
    refine ⟨last, ?_, hlast⟩
    rw [List.map_cons, ← htoken]
    exact .token hds hhead' hnest hnext
  | @Code.literal _ _ _ _ _ _ _ groups _ _ hc hhead body next =>
    have hmid := Nat.le_trans hstop next.reaches.rest_length_le
    have hn := Nat.le_trans hmid body.reaches.rest_length_le
    obtain ⟨ds, hds, hhead'⟩ := S.head_eq h hc hhead hprevious hn
    obtain ⟨mid, hbody, hmid'⟩ := body.simulated S (S.advance h hn) hmid
    have hliteral := S.literalBetween_eq h hmid' (.of_advance body.reaches)
      (.of_advance hbody.reaches) groups
    obtain ⟨last, hnext, hlast⟩ := next.simulated S hmid' hstop (all_move hliteral)
    refine ⟨last, ?_, hlast⟩
    rw [List.map_cons, ← hliteral]
    exact .literal hds hhead' hbody hnext

/-- So is a template literal. -/
theorem Template.simulated {c stop d : Cursor} {groups : List (List Token)} {isClosed : Bool}
    (reading : Template c groups stop isClosed) (S : Simulation f left R) (h : R c d)
    (hstop : left ≤ stop.rest.length) :
    ∃ last, Template d (groups.map (·.map (move f))) last isClosed ∧ R stop last := by
  match reading with
  | .unclosed hc => exact ⟨d, .unclosed (S.done h hstop hc), h⟩
  | .escape hc next =>
    have hn := Nat.le_trans hstop next.reaches.rest_length_le
    obtain ⟨ds, hds, _⟩ := S.exists_cons h hc hn
    obtain ⟨last, hnext, hlast⟩ := next.simulated S (S.advance h hn) hstop
    exact ⟨last, .escape hds hnext, hlast⟩
  | .closed hc =>
    obtain ⟨ds, hds, _⟩ := S.exists_cons h hc hstop
    exact ⟨_, .closed hds, S.advance h hstop⟩
  | .interpolation hc code next =>
    have hmid := Nat.le_trans hstop next.reaches.rest_length_le
    have hn := Nat.le_trans hmid code.reaches.rest_length_le
    obtain ⟨ds, hds, hbrace⟩ := S.exists_cons h hc hn
    obtain ⟨rest, rfl⟩ : ∃ rest, ds = '\x7b' :: rest := by
      cases ds with
      | nil => cases hbrace
      | cons e rest => exact ⟨rest, by cases hbrace; rfl⟩
    obtain ⟨mid, hcode, hmid'⟩ := code.simulated S (S.advance h hn) hmid (rfl : none.all _ = _)
    obtain ⟨last, hnext, hlast⟩ := next.simulated S hmid' hstop
    exact ⟨last, .interpolation hds hcode hnext, hlast⟩
  | .text hc hescape hquote hopen next =>
    have hn := Nat.le_trans hstop next.reaches.rest_length_le
    obtain ⟨ds, hds, _⟩ := S.exists_cons h hc hn
    obtain ⟨last, hnext, hlast⟩ := next.simulated S (S.advance h hn) hstop
    exact ⟨last, .text hds hescape hquote
      (fun hdollar hbrace => hopen hdollar (S.opens h hc hds hn hbrace)) hnext, hlast⟩

end

/-- Where no position changes, the tokens are the same. -/
theorem Code.simulated_id {nesting : Nesting} {ts : List Token}
    (reading : Code nesting previous c ts stop) (S : Simulation id left R) (h : R c d)
    (hstop : left ≤ stop.rest.length) : ∃ last, Code nesting previous d ts last ∧ R stop last := by
  simpa using reading.simulated S h hstop rfl

theorem Template.simulated_id {groups : List (List Token)} {isClosed : Bool}
    (reading : Template c groups stop isClosed) (S : Simulation id left R) (h : R c d)
    (hstop : left ≤ stop.rest.length) :
    ∃ last, Template d groups last isClosed ∧ R stop last := by
  simpa using reading.simulated S h hstop

end Simulation

end Scan

/-! ## The same text at another place -/

namespace Cursor

/-- The cursor `d` holds what `c` holds up to `beyond`, and the positions from `d` on are those
from `c` on changed by `f`. The text of `d` does not end between a dot and a digit. -/
structure Matches (f : Position → Position) (beyond : List Char) (c d : Cursor) : Prop where
  rest_eq : c.rest = d.rest ++ beyond
  position_after : ∀ text, d.position.after text = f (c.position.after text)
  uncut : d.rest.getLast? = some '.' → beyond.head?.any isAsciiDigit = false

namespace Matches

variable {f : Position → Position} {beyond cs : List Char} {c d stop : Cursor} {ch : Char}
  {n : Nat}

theorem position_eq (h : Matches f beyond c d) : d.position = f c.position :=
  h.position_after []

/-- A step that leaves all of `beyond` to be read stays inside the text of `d`. -/
theorem le_or_nil (h : Matches f beyond c d) (hrest : beyond.length ≤ (c.advance n).rest.length) :
    n ≤ d.rest.length ∨ beyond = [] := by
  rw [advance_rest_length, h.rest_eq, List.length_append] at hrest
  rcases Nat.eq_zero_or_pos beyond.length with hzero | hpos
  · exact .inr (List.eq_nil_of_length_eq_zero hzero)
  · exact .inl (by omega)

theorem take_eq (h : Matches f beyond c d) (hn : n ≤ d.rest.length ∨ beyond = []) :
    c.rest.take n = d.rest.take n := by
  rw [h.rest_eq]
  rcases hn with hn | rfl
  · exact List.take_append_of_le_length hn
  · rw [List.append_nil]

theorem advance (h : Matches f beyond c d) (hn : n ≤ d.rest.length ∨ beyond = []) :
    Matches f beyond (c.advance n) (d.advance n) where
  rest_eq := by
    rw [advance_rest, advance_rest, h.rest_eq]
    rcases hn with hn | rfl
    · exact List.drop_append_of_le_length hn
    · rw [List.append_nil, List.append_nil]
  position_after text := by
    rw [advance_position, advance_position, h.take_eq hn, ← Position.after_append,
      ← Position.after_append, h.position_after]
  uncut hlast := by
    rw [advance_rest, List.getLast?_drop] at hlast
    split at hlast
    · cases hlast
    · exact h.uncut hlast

theorem exists_cons (h : Matches f beyond c d) (hc : c.rest = ch :: cs)
    (hd : 0 < d.rest.length ∨ beyond = []) : ∃ ds, d.rest = ch :: ds ∧ cs = ds ++ beyond := by
  have hrest := h.rest_eq
  rw [hc] at hrest
  cases hds : d.rest with
  | nil =>
    rw [hds] at hd hrest
    rcases hd with hd | rfl
    · exact absurd hd (Nat.lt_irrefl _)
    · cases hrest
  | cons e ds =>
    rw [hds] at hrest
    cases hrest
    exact ⟨ds, rfl, rfl⟩

theorem slice_eq {last : Cursor} (h : Matches f beyond c d) (hc : c.Reaches stop)
    (hd : d.Reaches last) (hlast : Matches f beyond stop last) : c.slice stop = d.slice last := by
  apply hc.slice_eq
  rw [h.rest_eq, hd.rest_eq, hlast.rest_eq, List.append_assoc]

/-- The same lexeme stands at both cursors. -/
theorem headAfter_eq {previous : Option Token} (h : Matches f beyond c d) (hc : c.rest = ch :: cs)
    (hn : (Scan.headAfter previous ch cs).length ≤ d.rest.length ∨ beyond = []) :
    ∃ ds, d.rest = ch :: ds ∧ Scan.headAfter previous ch ds = Scan.headAfter previous ch cs := by
  have hpos := Scan.length_pos_of_headAfter (rfl : Scan.headAfter previous ch cs = _)
  obtain ⟨ds, hds, rfl⟩ := h.exists_cons hc (hn.imp_left (Nat.lt_of_lt_of_le hpos))
  refine ⟨ds, hds, ?_⟩
  rcases hn with hn | rfl
  · rw [hds] at hn
    refine (Lexeme.head_cut hn ?_).symm
    rintro rfl rfl
    exact h.uncut (by rw [hds]; rfl)
  · rw [List.append_nil]

theorem simulation (f : Position → Position) (beyond : List Char) :
    Scan.Simulation f beyond.length (Matches f beyond) where
  position_eq h := h.position_eq
  advance h hn := h.advance (h.le_or_nil hn)
  take_eq h hn := (h.take_eq (h.le_or_nil hn)).symm
  slice_eq h hlast hc hd := (h.slice_eq hc hd hlast).symm
  done h _ hc := (List.append_eq_nil_iff.mp (h.rest_eq.symm.trans hc)).1
  headAfter_eq h hc hn := h.headAfter_eq hc (h.le_or_nil hn)
  opens {c d ch cs ds} h hc hd _ hopen := by
    have hrest := h.rest_eq
    rw [hc, hd] at hrest
    cases hrest
    obtain ⟨rest, rfl⟩ := List.head?_eq_some_iff.mp hopen
    rfl

end Matches

end Cursor

namespace Scan

open Token

variable {f : Position → Position} {beyond : List Char}

/-- Code that is read up to somewhere before `beyond` is read in the same way where `beyond` does
not follow. -/
theorem Code.moved {nesting : Nesting} {previous previous' : Option Token} {c stop d : Cursor}
    {ts : List Token} (reading : Code nesting previous c ts stop) (h : c.Matches f beyond d)
    (hstop : beyond.length ≤ stop.rest.length)
    (hprevious : previous'.all mayPrecedeRegex = previous.all mayPrecedeRegex) :
    ∃ last, Code nesting previous' d (ts.map (move f)) last ∧ stop.Matches f beyond last :=
  reading.simulated (Cursor.Matches.simulation f beyond) h hstop hprevious

/-- So is a template literal. -/
theorem Template.moved {c stop d : Cursor} {groups : List (List Token)} {isClosed : Bool}
    (reading : Template c groups stop isClosed) (h : c.Matches f beyond d)
    (hstop : beyond.length ≤ stop.rest.length) :
    ∃ last, Template d (groups.map (·.map (move f))) last isClosed ∧
      stop.Matches f beyond last :=
  reading.simulated (Cursor.Matches.simulation f beyond) h hstop

end Scan

end SymbolAtlas
