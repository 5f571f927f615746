import Mathlib.Data.List.Basic
import SymbolAtlas.Proofs.Python.Word
import SymbolAtlas.Proofs.Text.Cursor
import SymbolAtlas.Python.Parse

/-! # Running a parser

What the parsers of single tokens give, and how a successful run goes on, parser by parser. Then
what comes next where a line has text, a blank before text, or its end.
-/

namespace SymbolAtlas.Python

namespace Parse

variable {α β : Type} {s s' : State}

theorem bind_of_ok {p : Parse α} {a : α} (h : p s = .ok (a, s')) (f : α → Parse β) :
    (p >>= f) s = f a s' := by
  change (p s >>= fun r => f r.1 r.2) = f a s'
  rw [h]
  rfl

theorem map_of_ok {p : Parse α} {a : α} (h : p s = .ok (a, s')) (f : α → β) :
    (f <$> p) s = .ok (f a, s') := by
  rw [← bind_pure_comp, bind_of_ok h]
  rfl

theorem bind_get (f : State → Parse β) (s : State) : (get >>= f) s = f s s := rfl

theorem bind_query (g : State → α) (f : α → Parse β) (s : State) :
    (query g >>= f) s = f (g s) s := rfl

theorem bind_require {condition : Bool} (h : condition = true) (f : Unit → Parse β) (s : State) :
    (require condition >>= f) s = f () s := by
  subst h
  rfl

theorem bind_extras (hextras : s.extras = []) (f : List Tree → Parse β) :
    (extras >>= f) s = f [] s := by
  obtain ⟨stop, extras, start, ahead, blocks, inFormat, fuel⟩ := s
  subst hextras
  rfl

/-- The state after `length` characters are taken, what comes next not looked at yet. -/
def taken (length : Nat) (s : State) : State :=
  { s with stop := s.start.advance length, extras := [], start := s.start.advance length,
           ahead := .characters }

theorem take_eq (kind : Kind) (length : Nat) (demand : Demand) (s : State) :
    take kind length demand s =
      .ok (.leaf kind s.start (s.start.advance length), (taken length s).look demand s.fuel) := rfl

theorem token_eq (hextras : s.extras = []) (kind : Kind) (length : Nat) (demand : Demand) :
    token kind length demand s =
      .ok ([.leaf kind s.start (s.start.advance length)],
        (taken length s).look demand s.fuel) := by
  rw [token, bind_extras hextras, bind_of_ok (take_eq kind length demand s)]
  rfl

theorem mark_eq {text : String} (htext : s.isAt text = true) (hextras : s.extras = [])
    (demand : Demand) :
    mark text demand s =
      .ok ([.leaf .mark s.start (s.start.advance text.length)],
        (taken text.length s).look demand s.fuel) := by
  rw [mark, bind_query, bind_require htext, token_eq hextras]

theorem keyword_eq {word : String} (hword : s.isAtWord word = true) (hextras : s.extras = [])
    (demand : Demand) :
    keyword word demand s =
      .ok ([.leaf .mark s.start (s.start.advance word.length)],
        (taken word.length s).look demand s.fuel) := by
  rw [keyword, bind_query, bind_require hword, token_eq hextras]

theorem name_eq {word : String} (hword : s.word = word) (hne : (word != "") = true)
    (demand : Demand) :
    name demand s =
      .ok (.leaf .identifier s.start (s.start.advance word.length),
        (taken word.length s).look demand s.fuel) := by
  rw [name, bind_query, hword, bind_require hne, take_eq]

theorem child_of_ok {p : Parse Tree} {t : Tree} (h : p s = .ok (t, s')) (hextras : s.extras = []) :
    child p s = .ok ([t], s') := by
  rw [child, bind_extras hextras, bind_of_ok h]
  rfl

theorem childAs_of_ok {p : Parse Tree} {t : Tree} (h : p s = .ok (t, s')) (hextras : s.extras = [])
    (field : Field) : childAs field p s = .ok ([t.inField field], s') :=
  child_of_ok (map_of_ok h _) hextras

theorem iterate_of_none {step : α → Parse (Option α)} {a : α} (h : step a s = .ok (none, s'))
    (n : Nat) : iterate step (n + 1) a s = .ok (a, s') := by
  simp only [iterate, h]

theorem iterate_of_some {step : α → Parse (Option α)} {a b : α} (h : step a s = .ok (some b, s'))
    (n : Nat) : iterate step (n + 1) a s = iterate step n b s' := by
  simp only [iterate, h]

end Parse

/-! ## What comes next -/

/-- A character that begins a token of characters, wherever it stands. -/
def isSolid (c : Char) : Bool := !isFiller c && c != '#' && c != '\\'

theorem isSolid_ne {c : Char} (h : isSolid c = true) :
    isFiller c = false ∧ c ≠ '#' ∧ c ≠ '\\' := by
  simpa [isSolid, and_assoc] using h

theorem ne_of_not_isFiller {c d : Char} (h : isFiller c = false) (hd : isFiller d = true) :
    c ≠ d := by
  rintro rfl
  rw [hd] at h
  cases h

namespace Margin

/-- Blanks end at a solid character. -/
theorem scan_solid {c : Char} (hc : isSolid c = true) (readsComments : Bool) (m : Margin)
    (cs : List Char) : scan readsComments .blank m (c :: cs) = some { m with rest := c :: cs } := by
  obtain ⟨hfiller, hcomment, hescape⟩ := isSolid_ne hc
  have hne {d : Char} (hd : isFiller d = true) : c ≠ d := ne_of_not_isFiller hfiller hd
  simp [scan, hcomment, hescape, hne (d := '\n') rfl, hne (d := ' ') rfl, hne (d := '\t') rfl,
    hne (d := '\r') rfl, hne (d := '\x0c') rfl]

theorem scan_spaces {blanks rest : List Char} (hblanks : ∀ b ∈ blanks, b = ' ')
    (readsComments : Bool) (m : Margin) :
    scan readsComments .blank m (blanks ++ rest) =
      scan readsComments .blank
        { m with length := m.length + blanks.length, width := m.width + blanks.length } rest := by
  induction blanks generalizing m with
  | nil => rfl
  | cons b blanks ih =>
    obtain ⟨rfl, htail⟩ := List.forall_mem_cons.mp hblanks
    have hstep : scan readsComments .blank m (' ' :: (blanks ++ rest)) =
        scan readsComments .blank { m with length := m.length + 1, width := m.width + 1 }
          (blanks ++ rest) := rfl
    rw [List.cons_append, hstep, ih htail]
    simp only [List.length_cons, Nat.add_assoc, Nat.add_comm 1]

/-- No token of layout stands where spaces lead to a solid character. -/
theorem read_solid {blanks cs : List Char} {c : Char} (hblanks : ∀ b ∈ blanks, b = ' ')
    (hc : isSolid c = true) (readsComments : Bool) :
    ∃ m, read readsComments (blanks ++ c :: cs) = some m ∧ m.broken = false ∧ m.rest = c :: cs := by
  rw [read, scan_spaces hblanks, scan_solid hc]
  exact ⟨_, rfl, rfl, rfl⟩

/-- A line's end and what it leads to: the end of the text or a solid character. -/
theorem read_lineEnd {cs : List Char} (hcs : cs.head?.all isSolid = true)
    (readsComments : Bool) :
    ∃ m, read readsComments ('\n' :: cs) = some m ∧ m.broken = true ∧ m.width = 0 ∧
      m.rest = cs := by
  have hstep : read readsComments ('\n' :: cs) =
      scan readsComments .blank ⟨true, 0, none, 1, '\n' :: cs⟩ cs := rfl
  rw [hstep]
  cases cs with
  | nil => exact ⟨_, rfl, rfl, rfl, rfl⟩
  | cons c cs =>
    rw [scan_solid (by simpa using hcs)]
    exact ⟨_, rfl, rfl, rfl, rfl⟩

end Margin

namespace State

variable {s : State} {blanks cs : List Char} {c : Char}

/-- Looking for the next token leaves the bound of the parser alone. -/
theorem look_fuel (demand : Demand) (n : Nat) (s : State) : (s.look demand n).fuel = s.fuel := by
  induction n generalizing s with
  | zero => rfl
  | succ n ih =>
    unfold look
    dsimp only
    repeat' split
    all_goals first | rfl | rw [ih]

/-- Where no layout and no string comes next, spaces lead to the next token. -/
theorem look_characters {m : Option Margin} {demand : Demand} {n : Nat}
    (hmargin : Margin.read demand.readsComments s.stop.rest = m)
    (htoken : m.bind (·.token? demand (s.blocks.headD 0) s.inFormat) = none)
    (hopening : demand.string = true → ∀ margin ∈ m, Opening.read margin.rest = none)
    (hrest : s.stop.rest = blanks ++ c :: cs) (hblanks : ∀ b ∈ blanks, isFiller b = true)
    (hc : isSolid c = true) :
    s.look demand (n + 1) =
      { s with start := s.stop.advance blanks.length, ahead := .characters } := by
  obtain ⟨hfiller, hcomment, hescape⟩ := isSolid_ne hc
  have hfillers : (s.stop.rest.takeWhile isFiller).length = blanks.length := by
    rw [hrest, takeWhile_append_eq hblanks (by simp [hfiller])]
  have hstart : (s.stop.advance blanks.length).rest = c :: cs := by
    rw [Cursor.advance_rest, hrest, List.drop_left]
  have hcontinuation : continuationLength? (c :: cs) = none := by
    unfold continuationLength?
    split <;> simp_all
  have hnone : (m >>= fun m => if (demand.string && m.comment.isNone) = true then
      Opening.read m.rest >>= fun r => pure (m.length, r.1, r.2) else none) = none := by
    cases m with
    | none => rfl
    | some m =>
      cases hstring : demand.string with
      | false => rfl
      | true => simp [hopening hstring m rfl]
  unfold look
  simp only [hmargin, htoken, hnone]
  simp only [hfillers, hstart, hcontinuation]
  split
  · cases ‹_›
  · simp_all
  · rfl

/-- Spaces on a line lead to the next token. -/
theorem look_spaces {demand : Demand} {n : Nat}
    (hopening : demand.string = true → Opening.read (c :: cs) = none)
    (hrest : s.stop.rest = blanks ++ c :: cs) (hblanks : ∀ b ∈ blanks, b = ' ')
    (hc : isSolid c = true) :
    s.look demand (n + 1) =
      { s with start := s.stop.advance blanks.length, ahead := .characters } := by
  obtain ⟨m, hread, hbroken, hm⟩ := Margin.read_solid hblanks hc demand.readsComments
  have htoken : (some m).bind (·.token? demand (s.blocks.headD 0) s.inFormat) = none := by
    simp [Margin.token?, hbroken]
  refine look_characters (by rw [hrest, hread]) htoken ?_ hrest ?_ hc
  · intro hstring margin hmargin
    rw [← Option.some.inj hmargin, hm]
    exact hopening hstring
  · intro b hb
    rw [hblanks b hb]
    rfl

/-- The margin at the end of a line that leads to the end of the text or a solid character. -/
theorem exists_margin (hrest : s.stop.rest = [] ∨
      ∃ cs, s.stop.rest = '\n' :: cs ∧ cs.head?.all isSolid = true) (readsComments : Bool) :
    ∃ m, Margin.read readsComments s.stop.rest = some m ∧ m.broken = true ∧ m.width = 0 ∧
      m.rest = s.stop.rest.drop 1 := by
  rcases hrest with hrest | ⟨cs, hrest, hcs⟩ <;> rw [hrest]
  · exact ⟨_, rfl, rfl, rfl, rfl⟩
  · exact Margin.read_lineEnd hcs readsComments

/-- Outside blocks a line ends where the grammar has a place for its end. -/
theorem look_lineEnd {demand : Demand} {n : Nat} (hlineEnd : demand.lineEnd = true)
    (hrest : s.stop.rest = [] ∨ ∃ cs, s.stop.rest = '\n' :: cs ∧ cs.head?.all isSolid = true)
    (hblocks : s.blocks = [0]) :
    s.look demand (n + 1) = { s with start := s.stop, ahead := .layout .lineEnd } := by
  obtain ⟨m, hread, hbroken, hwidth, _⟩ := exists_margin hrest demand.readsComments
  have htoken : m.token? demand 0 s.inFormat = some .lineEnd := by
    simp [Margin.token?, hbroken, hwidth, hlineEnd]
  unfold look
  simp only [hread, hblocks, List.headD_cons, Option.bind_some, htoken]

/-- A source ends where nothing but the end of its last line is left. -/
theorem look_finish {demand : Demand} {n : Nat} (hdemand : demand.lineEnd = false)
    (hrest : s.stop.rest = [] ∨ s.stop.rest = ['\n']) (hblocks : s.blocks = [0]) :
    s.look demand (n + 1) =
      { s with start := s.stop.advance s.stop.rest.length, ahead := .finish } := by
  have hrest' : s.stop.rest = [] ∨
      ∃ cs, s.stop.rest = '\n' :: cs ∧ cs.head?.all isSolid = true :=
    hrest.imp id fun h => ⟨[], h, rfl⟩
  obtain ⟨m, hread, hbroken, hwidth, hm⟩ := exists_margin hrest' demand.readsComments
  have hmrest : m.rest = [] := by
    rw [hm]
    rcases hrest with h | h <;> rw [h] <;> rfl
  have htoken : m.token? demand 0 s.inFormat = none := by
    simp [Margin.token?, hbroken, hwidth, hdemand]
  have hopening : Opening.read m.rest = none := by
    rw [hmrest]
    rfl
  have hfillers : (s.stop.rest.takeWhile isFiller).length = s.stop.rest.length := by
    rcases hrest with h | h <;> rw [h] <;> rfl
  have hstart : (s.stop.advance s.stop.rest.length).rest = [] := by
    rw [Cursor.advance_rest, List.drop_length]
  unfold look
  simp only [hread, hblocks, List.headD_cons, Option.bind_some, htoken]
  simp [hopening, hfillers, hstart]

/-- The next line's text comes next where no end of a line has a place. -/
theorem look_nextLine {demand : Demand} {n : Nat} (hlineEnd : demand.lineEnd = false)
    (hrest : s.stop.rest = '\n' :: c :: cs) (hc : isSolid c = true) (hblocks : s.blocks = [0])
    (hopening : Opening.read (c :: cs) = none) :
    s.look demand (n + 1) = { s with start := s.stop.advance 1, ahead := .characters } := by
  have hrest' : s.stop.rest = [] ∨
      ∃ cs, s.stop.rest = '\n' :: cs ∧ cs.head?.all isSolid = true :=
    .inr ⟨c :: cs, hrest, by simpa using hc⟩
  obtain ⟨m, hread, hbroken, hwidth, hm⟩ := exists_margin hrest' demand.readsComments
  have htoken : (some m).bind (·.token? demand (s.blocks.headD 0) s.inFormat) = none := by
    simp [Margin.token?, hbroken, hwidth, hblocks, hlineEnd]
  refine @look_characters s ['\n'] cs c _ demand n hread htoken ?_ hrest
    (List.forall_mem_singleton.mpr rfl) hc
  intro _ margin hmargin
  rw [← Option.some.inj hmargin, hm, hrest]
  exact hopening

end State

end SymbolAtlas.Python
