import SymbolAtlas.Proofs.Text.LineIndex
import SymbolAtlas.Proofs.Token.Layer

/-! # Where the tokens of a source stand

Each token is a slice of the source that begins where its position says. The tokens of one list
follow each other without overlap, and the tokens of a template literal's interpolations begin
after the literal and end before it, unless the literal is not closed: then both may run to the
end of the source. The layout is carried through the scanner in character offsets; the results are
about offsets in UTF-16 units, as positions count them.
-/

namespace SymbolAtlas

namespace Token

structure Covers (source : List Char) (t : Token) (a b : Nat) : Prop where
  lt : a < b
  le : b ≤ source.length
  text_eq : t.text.toList = (source.drop a).take (b - a)
  position_eq : t.position = Position.start.after (source.take a)

/-- The template literal `t` is not closed: the source ends before a backquote that closes it. -/
def IsOpen (source : List Char) (t : Token) : Prop := ∃ groups, IsLiteral source t groups false

/-- The tokens cover disjoint parts of the source, in order, between the indices `lo` and `hi`;
those inside a template literal begin after it begins and end before it ends, or where an open one
ends with the source. -/
inductive Laid (source : List Char) : Nat → List Token → Nat → Prop
  | nil {lo hi : Nat} (h : lo ≤ hi) : Laid source lo [] hi
  | plain {lo a b hi : Nat} {kind : Kind} {p : Position} {s : String} {ts : List Token}
      (hlo : lo ≤ a) (covers : Covers source (.plain kind p s) a b) (next : Laid source b ts hi) :
      Laid source lo (.plain kind p s :: ts) hi
  | template {lo a mid b hi : Nat} {p : Position} {s : String} {inside ts : List Token}
      (hlo : lo ≤ a) (covers : Covers source (.template p s inside) a b)
      (within : Laid source (a + 1) inside mid)
      (hmid : mid < b ∨ mid = b ∧ b = source.length ∧ IsOpen source (.template p s inside))
      (next : Laid source b ts hi) : Laid source lo (.template p s inside :: ts) hi

namespace Laid

variable {source : List Char} {lo mid hi : Nat} {ts us : List Token}

theorem le (h : Laid source lo ts hi) : lo ≤ hi := by
  induction h with
  | nil h => exact h
  | plain hlo covers next ih => exact Nat.le_trans hlo (Nat.le_trans (Nat.le_of_lt covers.lt) ih)
  | template hlo covers within hmid next _ ih =>
    exact Nat.le_trans hlo (Nat.le_trans (Nat.le_of_lt covers.lt) ih)

theorem of_le {lo' : Nat} (h : Laid source lo ts hi) (hlo : lo' ≤ lo) : Laid source lo' ts hi := by
  cases h with
  | nil h => exact .nil (Nat.le_trans hlo h)
  | plain hlo' covers next => exact .plain (Nat.le_trans hlo hlo') covers next
  | template hlo' covers within hmid next =>
    exact .template (Nat.le_trans hlo hlo') covers within hmid next

theorem append (h : Laid source lo ts mid) (h' : Laid source mid us hi) :
    Laid source lo (ts ++ us) hi := by
  induction h with
  | nil hle => exact h'.of_le hle
  | plain hlo covers next ih => exact .plain hlo covers (ih h')
  | template hlo covers within hmid next _ ih => exact .template hlo covers within hmid (ih h')

/-- Every token of the list covers its own part of the interval. -/
theorem exists_covers (h : Laid source lo ts hi) {t : Token} (ht : t ∈ ts) :
    ∃ a b, lo ≤ a ∧ b ≤ hi ∧ Covers source t a b := by
  induction h with
  | nil => exact absurd ht List.not_mem_nil
  | plain hlo covers next ih =>
    rcases List.mem_cons.mp ht with rfl | ht
    · exact ⟨_, _, hlo, next.le, covers⟩
    · obtain ⟨a, b, ha, hb, hcovers⟩ := ih ht
      have := covers.lt
      exact ⟨a, b, by omega, hb, hcovers⟩
  | template hlo covers within hmid next _ ih =>
    rcases List.mem_cons.mp ht with rfl | ht
    · exact ⟨_, _, hlo, next.le, covers⟩
    · obtain ⟨a, b, ha, hb, hcovers⟩ := ih ht
      have := covers.lt
      exact ⟨a, b, by omega, hb, hcovers⟩

/-- The interpolation tokens of a template literal in the list are laid out inside it. -/
theorem exists_within (h : Laid source lo ts hi) {p : Position} {s : String}
    {inside : List Token} (ht : .template p s inside ∈ ts) :
    ∃ a mid b, Covers source (.template p s inside) a b ∧ Laid source (a + 1) inside mid ∧
      (mid < b ∨ mid = b ∧ b = source.length ∧ IsOpen source (.template p s inside)) := by
  induction h with
  | nil => exact absurd ht List.not_mem_nil
  | plain hlo covers next ih =>
    rcases List.mem_cons.mp ht with heq | ht
    · exact Token.noConfusion heq
    · exact ih ht
  | template hlo covers within hmid next _ ih =>
    rcases List.mem_cons.mp ht with heq | ht
    · cases heq
      exact ⟨_, _, _, covers, within, hmid⟩
    · exact ih ht

theorem layer (h : Laid source lo ts hi) {l : List Token} (hl : Layer ts l) :
    ∃ lo hi, Laid source lo l hi := by
  induction hl with
  | outer => exact ⟨lo, hi, h⟩
  | inner _ hmem ih =>
    obtain ⟨lo', hi', hlaid⟩ := ih
    obtain ⟨a, mid, b, _, within, _⟩ := hlaid.exists_within hmem
    exact ⟨a + 1, mid, within⟩

end Laid

theorem covers_between {source : List Char} {c stop : Cursor} {t : Token} (hc : c.IsIn source)
    (hstop : stop.IsIn source) (hlt : c.offset < stop.offset) (hp : t.position = c.position)
    (htext : t.text = String.ofList (c.slice stop)) : t.Covers source c.offset stop.offset where
  lt := hlt
  le := hstop.offset_le
  text_eq := by rw [htext, String.toList_ofList, hc.slice_eq]
  position_eq := hp.trans hc.position_eq

end Token

namespace Scan

open Token

/-- Tokens that end at index `mid` end before the cursor, or where the text does. -/
def EndsBy (mid : Nat) (stop : Cursor) : Prop :=
  mid < stop.offset ∨ mid = stop.offset ∧ stop.rest = []

theorem EndsBy.le {mid : Nat} {stop : Cursor} (h : EndsBy mid stop) : mid ≤ stop.offset := by
  rcases h with h | ⟨h, _⟩ <;> omega

mutual

/-- The tokens of a reading are laid out between its two cursors. -/
theorem Code.laid {source : List Char} {nesting : Nesting} {previous : Option Token}
    {c stop : Cursor} {ts : List Token} :
    Code nesting previous c ts stop → c.IsIn source →
      ∃ mid, Laid source c.offset ts mid ∧ EndsBy mid stop
  | .done hc, _ => ⟨_, .nil (Nat.le_refl _), .inr ⟨rfl, hc⟩⟩
  | .gap _ _ next, h => by
    obtain ⟨mid, hlaid, hends⟩ := next.laid (h.advance _)
    exact ⟨mid, hlaid.of_le (c.le_advance_offset _), hends⟩
  | .closing hc hhead _, _ =>
    ⟨_, .nil (Nat.le_refl _), .inl (Cursor.lt_advance_offset (length_pos_of_headAfter hhead) hc)⟩
  | .token hc hhead _ next, h => by
    obtain ⟨mid, hlaid, hends⟩ := next.laid (h.advance _)
    have hlt := Cursor.lt_advance_offset (length_pos_of_headAfter hhead) hc
    exact ⟨mid, .plain (Nat.le_refl _) (covers_between h (h.advance _) hlt rfl rfl) hlaid, hends⟩
  | @Code.literal _ _ _ last _ _ _ groups isClosed _ hc hhead body next, h => by
    have hlast := body.reaches
    have hin := (h.advance 1).reaches hlast
    obtain ⟨inner, within, hinner, hclosed⟩ := body.laid (h.advance 1)
    obtain ⟨mid, hlaid, hends⟩ := next.laid hin
    have hone := Cursor.lt_advance_offset Nat.one_pos hc
    have hlt := Nat.lt_of_lt_of_le hone hlast.offset_le
    have hmid : inner < last.offset ∨
        inner = last.offset ∧ last.offset = source.length ∧
          IsOpen source (literalBetween c last groups) := by
      rcases hinner with hlt | ⟨heq, hrest⟩
      · exact .inl hlt
      cases isClosed with
      | true => exact .inl (hclosed rfl)
      | false =>
        have hquote := Lexeme.eq_of_head_eq_backquote hhead
        have hopen : IsLiteral source (literalBetween c last groups) groups false :=
          ⟨c, last, h, by rw [hc, hquote]; rfl, body, rfl⟩
        exact .inr ⟨heq, hin.offset_eq_length hrest, groups, hopen⟩
    exact ⟨mid, .template (Nat.le_refl _) (covers_between h hin hlt rfl rfl)
      (within.of_le hone) hmid hlaid, hends⟩

/-- The tokens of all interpolations of a template literal are laid out inside its quotes. -/
theorem Template.laid {source : List Char} {c stop : Cursor} {groups : List (List Token)}
    {isClosed : Bool} :
    Template c groups stop isClosed → c.IsIn source →
      ∃ mid, Laid source c.offset groups.flatten mid ∧ EndsBy mid stop ∧
        (isClosed = true → mid < stop.offset)
  | .unclosed hc, _ => ⟨_, .nil (Nat.le_refl _), .inr ⟨rfl, hc⟩, Bool.noConfusion⟩
  | .escape _ next, h => by
    obtain ⟨mid, hlaid, hends⟩ := next.laid (h.advance 2)
    exact ⟨mid, hlaid.of_le (c.le_advance_offset 2), hends⟩
  | .closed hc, _ => by
    have hlt := Cursor.lt_advance_offset Nat.one_pos hc
    exact ⟨_, .nil (Nat.le_refl _), .inl hlt, fun _ => hlt⟩
  | .interpolation _ group next, h => by
    have hin := (h.advance 2).reaches group.reaches
    obtain ⟨inner, hgroup, hinner⟩ := group.laid (h.advance 2)
    obtain ⟨mid, hlaid, hends⟩ := next.laid hin
    have hfirst := hgroup.of_le (c.le_advance_offset 2)
    exact ⟨mid, hfirst.append (hlaid.of_le hinner.le), hends⟩
  | .text _ _ _ _ next, h => by
    obtain ⟨mid, hlaid, hends⟩ := next.laid (h.advance 1)
    exact ⟨mid, hlaid.of_le (c.le_advance_offset 1), hends⟩

end

end Scan

theorem tokenize_laid (source : String) :
    ∃ lo hi, Token.Laid source.toList lo (tokenize source) hi := by
  obtain ⟨stop, reading⟩ := tokenize_reads source
  obtain ⟨mid, hlaid, _⟩ := reading.laid (Scan.codeStart_isIn source.toList)
  exact ⟨_, mid, hlaid⟩

/-! ## Spans in UTF-16 units -/

namespace Token

/-- The offset in the source at which the token begins, read off its line and column. -/
def start (source : String) (t : Token) : Nat :=
  (LineIndex.ofList source.toList).offsetOf t.position

def stop (source : String) (t : Token) : Nat := t.start source + utf16Length t.text.toList

/-- The token is the part of the source, not empty, that begins at its start, and the line index
of the source locates its start at its position. -/
def IsSlice (source : String) (t : Token) : Prop :=
  t.text ≠ "" ∧
    (∃ before after, source.toList = before ++ t.text.toList ++ after ∧
      utf16Length before = t.start source) ∧
    (LineIndex.ofList source.toList).locate (t.start source) = t.position

theorem IsSlice.start_lt_stop {source : String} {t : Token} (h : t.IsSlice source) :
    t.start source < t.stop source := by
  have hne : t.text.toList ≠ [] := fun he => h.1 (String.toList_eq_nil_iff.mp he)
  have := utf16Length_pos hne
  rw [stop]
  omega

namespace Covers

variable {source : String} {t : Token} {a b : Nat}

theorem split (h : t.Covers source.toList a b) :
    source.toList = source.toList.take a ++ t.text.toList ++ source.toList.drop b := by
  have hb : b = a + (b - a) := by
    have := h.lt
    omega
  have hdrop : source.toList.drop b = (source.toList.drop a).drop (b - a) := by
    rw [List.drop_drop, ← hb]
  rw [h.text_eq, List.append_assoc, hdrop, List.take_append_drop, List.take_append_drop]

theorem start_eq (h : t.Covers source.toList a b) :
    t.start source = utf16Length (source.toList.take a) := by
  have hsplit := LineIndex.offsetOf_prefix (source.toList.take a) (source.toList.drop a)
  rw [List.take_append_drop] at hsplit
  rw [start, h.position_eq, hsplit]

theorem stop_eq (h : t.Covers source.toList a b) :
    t.stop source = utf16Length (source.toList.take b) := by
  have hb : b = a + (b - a) := by
    have := h.lt
    omega
  rw [stop, h.start_eq, h.text_eq, ← utf16Length_append, ← List.take_add, ← hb]

theorem isSlice (h : t.Covers source.toList a b) : t.IsSlice source := by
  refine ⟨?_, ⟨_, _, h.split, h.start_eq.symm⟩, ?_⟩
  · intro hempty
    have hlen := congrArg List.length h.text_eq
    have hlt := h.lt
    have hle := h.le
    rw [hempty, List.length_take, List.length_drop, String.toList_empty, List.length_nil] at hlen
    omega
  · have hlocate := LineIndex.locate_prefix (source.toList.take a) (source.toList.drop a)
    rw [List.take_append_drop] at hlocate
    rw [h.start_eq, hlocate, h.position_eq]

end Covers

theorem Laid.pairwise {source : String} {lo hi : Nat} {ts : List Token}
    (h : Laid source.toList lo ts hi) : ts.Pairwise fun t u => t.stop source ≤ u.start source := by
  have later {t : Token} {a b hi : Nat} {us : List Token} (covers : t.Covers source.toList a b)
      (next : Laid source.toList b us hi) (u : Token) (hu : u ∈ us) :
      t.stop source ≤ u.start source := by
    obtain ⟨a', b', ha, _, hu⟩ := next.exists_covers hu
    rw [covers.stop_eq, hu.start_eq]
    exact utf16Length_take_le _ ha
  induction h with
  | nil => exact .nil
  | plain _ covers next ih => exact .cons (later covers next) ih
  | template _ covers _ _ next _ ih => exact .cons (later covers next) ih

/-- The span of an interpolation token lies inside that of its template literal. It begins later,
and it ends earlier, or both end with the source and the literal is not closed. -/
def IsEnclosed (source : String) (p : Position) (s : String) (inside : List Token) (u : Token) :
    Prop :=
  let literal := Token.template p s inside
  literal.start source < u.start source ∧
    (u.stop source < literal.stop source ∨
      u.stop source = literal.stop source ∧ u.stop source = utf16Length source.toList ∧
        IsOpen source.toList literal)

theorem Laid.isEnclosed {source : String} {lo hi : Nat} {ts inside : List Token} {p : Position}
    {s : String} {u : Token} (h : Laid source.toList lo ts hi)
    (ht : Token.template p s inside ∈ ts) (hu : u ∈ inside) : IsEnclosed source p s inside u := by
  obtain ⟨a, mid, b, covers, within, hmid⟩ := h.exists_within ht
  obtain ⟨a', b', ha, hb, hcovers⟩ := within.exists_covers hu
  rw [IsEnclosed, covers.start_eq, covers.stop_eq, hcovers.start_eq, hcovers.stop_eq]
  refine ⟨utf16Length_take_lt ha (Nat.le_trans (Nat.le_of_lt hcovers.lt) hcovers.le), ?_⟩
  by_cases hlt : b' < b
  · exact .inl (utf16Length_take_lt hlt covers.le)
  · rcases hmid with hmid | ⟨rfl, hlen, hopen⟩
    · omega
    · obtain rfl : b' = mid := by omega
      exact .inr ⟨rfl, by rw [List.take_of_length_le (Nat.le_of_eq hlen.symm)], hopen⟩

/-- How the tokens of one list stand in the source: each is a slice of it at its own position, the
spans follow each other without overlap, and those of interpolation tokens are enclosed. -/
structure Placed (source : String) (ts : List Token) : Prop where
  isSlice : ∀ t ∈ ts, t.IsSlice source
  ordered : ts.Pairwise fun t u =>
    t.start source < u.start source ∧ t.stop source ≤ u.start source
  isEnclosed : ∀ p s inside, template p s inside ∈ ts → ∀ u ∈ inside,
    IsEnclosed source p s inside u

/-- Every token list that a source gives, at every depth, is placed in the source. -/
theorem placed_of_layer (source : String) {ts : List Token} (h : Layer (tokenize source) ts) :
    Placed source ts := by
  obtain ⟨lo, hi, hsource⟩ := tokenize_laid source
  obtain ⟨lo', hi', hlaid⟩ := hsource.layer h
  have slices (t : Token) (ht : t ∈ ts) : t.IsSlice source := by
    obtain ⟨a, b, _, _, covers⟩ := hlaid.exists_covers ht
    exact covers.isSlice
  refine ⟨slices, ?_, fun p s inside ht u hu => hlaid.isEnclosed ht hu⟩
  refine hlaid.pairwise.imp_of_mem fun {t u} ht _ hle => ⟨?_, hle⟩
  have := (slices t ht).start_lt_stop
  omega

theorem placed_inside_literal :
    Layer (tokenize "x \x60$\x7ba\x7d \\\x60 $\x7bb\x7d\x60")
        [.plain .identifier ⟨1, 6⟩ "a", .plain .identifier ⟨1, 14⟩ "b"] ∧
      Placed "x \x60$\x7ba\x7d \\\x60 $\x7bb\x7d\x60"
        [.plain .identifier ⟨1, 6⟩ "a", .plain .identifier ⟨1, 14⟩ "b"] := by
  have htokens : tokenize "x \x60$\x7ba\x7d \\\x60 $\x7bb\x7d\x60" =
      [.plain .identifier ⟨1, 1⟩ "x",
        .template ⟨1, 3⟩ "\x60$\x7ba\x7d \\\x60 $\x7bb\x7d\x60"
          [.plain .identifier ⟨1, 6⟩ "a", .plain .identifier ⟨1, 14⟩ "b"]] := rfl
  have hlayer : Layer (tokenize "x \x60$\x7ba\x7d \\\x60 $\x7bb\x7d\x60")
      [.plain .identifier ⟨1, 6⟩ "a", .plain .identifier ⟨1, 14⟩ "b"] := by
    rw [htokens]
    exact .inner .outer (List.mem_cons_of_mem _ (List.mem_singleton.mpr rfl))
  exact ⟨hlayer, placed_of_layer _ hlayer⟩

/-- An open literal ends where its last interpolation token does. -/
theorem not_strictly_enclosed :
    ¬ ∀ (source : String) (ts inside : List Token) (p : Position) (s : String) (u : Token),
      Layer (tokenize source) ts → template p s inside ∈ ts → u ∈ inside →
        u.stop source < (template p s inside).stop source := by
  intro h
  have htokens : tokenize "\x60$\x7ba" =
      [.template ⟨1, 1⟩ "\x60$\x7ba" [.plain .identifier ⟨1, 4⟩ "a"]] := rfl
  have hmem : template ⟨1, 1⟩ "\x60$\x7ba" [.plain .identifier ⟨1, 4⟩ "a"] ∈
      tokenize "\x60$\x7ba" := by
    rw [htokens]
    exact List.mem_singleton.mpr rfl
  have hlt := h _ _ _ _ _ _ .outer hmem (List.mem_singleton.mpr rfl)
  revert hlt
  decide

end Token

end SymbolAtlas
