import SymbolAtlas.Proofs.Python.PrintedImport
import SymbolAtlas.Proofs.Python.Running
import SymbolAtlas.Python.Grammar.SimpleStatement
import SymbolAtlas.Python.Tree.Imports

/-! # The trees of printed import lists

The grammar reads a printed import list as trees that make the list's bindings. What comes after
each token is known from the text that follows it, so that reading is traced from state to state.
-/

namespace SymbolAtlas.Python

open Parse Grammar

/-! ## Imports of trees -/

namespace Tree

theorem flatMap_nodesOf {α : Type} (f : Tree → List α) (ts : List Tree) :
    (nodesOf ts).flatMap f = ts.flatMap fun t => t.nodes.flatMap f := by
  induction ts with
  | nil => rfl
  | cons t ts ih => rw [nodesOf, List.flatMap_append, List.flatMap_cons, ih]

theorem imports_eq (t : Tree) : t.imports = t.importsHere ++ t.children.flatMap imports := by
  obtain ⟨kind, field, start, stop, children⟩ := t
  rw [imports, nodes, List.flatMap_cons, flatMap_nodesOf]
  rfl

def makesImports (kind : Kind) : Bool := [.plainImport, .fromImport, .futureImport].contains kind

theorem importsHere_eq_nil {t : Tree} (h : makesImports t.kind = false) : t.importsHere = [] := by
  unfold importsHere
  split <;> simp_all [makesImports]

theorem imports_leaf {kind : Kind} (h : makesImports kind = false) (start stop : Cursor) :
    (leaf kind start stop).imports = [] := by
  rw [imports_eq, importsHere_eq_nil h]
  rfl

theorem imports_inField (field : Field) (t : Tree) : (t.inField field).imports = t.imports := by
  rw [imports_eq, imports_eq t]
  rfl

end Tree

/-- Trees that lead from one place to another and make no imports. -/
structure Covers (ts : List Tree) (start stop : Cursor) : Prop where
  start_eq : ts.head?.map Tree.start = some start
  stop_eq : ts.getLast?.map Tree.stop = some stop
  imports_eq : ∀ t ∈ ts, t.imports = []

namespace Covers

variable {ts us : List Tree} {start mid mid' stop : Cursor}

theorem leaf {kind : Kind} (hkind : Tree.makesImports kind = false) (start stop : Cursor) :
    Covers [.leaf kind start stop] start stop := by
  refine ⟨rfl, rfl, ?_⟩
  intro t ht
  rw [List.mem_singleton.mp ht, Tree.imports_leaf hkind]

theorem append (hts : Covers ts start mid) (hus : Covers us mid' stop) :
    Covers (ts ++ us) start stop := by
  refine ⟨?_, ?_, ?_⟩
  · cases ts with
    | nil => cases hts.start_eq
    | cons t ts => exact hts.start_eq
  · rw [List.getLast?_append]
    cases hlast : us.getLast? with
    | none =>
      have := hus.stop_eq
      rw [hlast] at this
      cases this
    | some t =>
      have := hus.stop_eq
      rw [hlast] at this
      exact this
  · intro t ht
    exact (List.mem_append.mp ht).elim (hts.imports_eq t) (hus.imports_eq t)

theorem node_start (h : Covers ts start stop) (kind : Kind) :
    (Tree.node kind ts).start = start := by
  rw [Tree.node, h.start_eq]
  rfl

theorem node_stop (h : Covers ts start stop) (kind : Kind) : (Tree.node kind ts).stop = stop := by
  rw [Tree.node, h.stop_eq]
  rfl

theorem node_imports (h : Covers ts start stop) (kind : Kind) :
    (Tree.node kind ts).imports = (Tree.node kind ts).importsHere := by
  rw [Tree.imports_eq]
  have : (Tree.node kind ts).children.flatMap Tree.imports = [] :=
    List.flatMap_eq_nil_iff.mpr h.imports_eq
  rw [this, List.append_nil]

theorem node (h : Covers ts start stop) (kind : Kind) (hkind : Tree.makesImports kind = false) :
    Covers [Tree.node kind ts] start stop := by
  refine ⟨congrArg some (h.node_start kind), congrArg some (h.node_stop kind), ?_⟩
  intro t ht
  rw [List.mem_singleton.mp ht, h.node_imports, Tree.importsHere_eq_nil hkind]

/-- The text of a tree that covers `text`. -/
theorem text_eq {t : Tree} {text rest : List Char}
    (h : Covers [t] start (start.advance text.length)) (hstart : start.rest = text ++ rest) :
    t.text = String.ofList text := by
  have hs : t.start = start := Option.some.inj h.start_eq
  have he : t.stop = start.advance text.length := Option.some.inj h.stop_eq
  rw [Tree.text, Tree.chars, hs, he, Cursor.slice_advance, hstart, List.take_left]

end Covers

/-! ## States on a line -/


/-- The state outside blocks and interpolations where all is read up to `stop` and text comes next
at `start`. -/
def onText (fuel : Nat) (stop start : Cursor) : State :=
  ⟨stop, [], start, .characters, [0], false, fuel⟩

/-- The same where a line ends at `stop`. -/
def onLineEnd (fuel : Nat) (stop : Cursor) : State :=
  ⟨stop, [], stop, .layout .lineEnd, [0], false, fuel⟩

/-- The same with what a demand finds after `stop`. -/
def nextFrom (fuel : Nat) (demand : Demand) (stop : Cursor) : State :=
  (onText fuel stop stop).look demand fuel

theorem rest_advance {c : Cursor} (text : List Char) {rest : List Char}
    (h : c.rest = text ++ rest) : (c.advance text.length).rest = rest := by
  rw [Cursor.advance_rest, h, List.drop_left]

/-- What may stand after a line's text: the end of the text, or a line break and then the end of
the text or a solid character. -/
def IsLineEnd (rest : List Char) : Prop :=
  rest = [] ∨ ∃ cs, rest = '\n' :: cs ∧ cs.head?.all isSolid = true

abbrev atEnd : Demand := Context.statement.after

theorem isSolid_of_isAsciiWord {c : Char} (h : Identifier.isAsciiWord c = true) :
    isSolid c = true :=
  forall_ascii (P := fun c => Identifier.isAsciiWord c = true → isSolid c = true)
    (by decide +kernel) (toNat_of_isAsciiWord h) h

theorem Name.head_isSolid (n : Name) (rest : List Char) :
    (n.chars ++ rest).head?.any isSolid = true := by
  obtain ⟨c, cs, hn, hc⟩ := n.exists_cons
  rw [hn, List.cons_append, List.head?_cons]
  exact isSolid_of_isAsciiWord (isAsciiWord_of_start hc)

/-! What is printed with a name in front begins as that name does. -/

theorem DottedName.chars_append (d : DottedName) (rest : List Char) :
    d.chars ++ rest = d.first.chars ++ (dottedRest d.others ++ rest) :=
  List.append_assoc _ _ _

theorem Entries.chars_append (es : Entries) (rest : List Char) :
    es.chars ++ rest = es.first.path.chars ++
      (renameText es.first.rename ++ (entriesRest es.others ++ rest)) := by
  rw [Entries.chars, Entry.chars, List.append_assoc, List.append_assoc]

theorem DottedName.head_isSolid (d : DottedName) (rest : List Char) :
    (d.chars ++ rest).head?.any isSolid = true := by
  rw [d.chars_append]
  exact d.first.head_isSolid _

theorem Entries.head_isSolid (es : Entries) (rest : List Char) :
    (es.chars ++ rest).head?.any isSolid = true := by
  rw [es.chars_append]
  exact es.first.path.head_isSolid _

theorem ModuleName.head_isSolid (m : ModuleName) (rest : List Char) :
    (m.chars ++ rest).head?.any isSolid = true := by
  cases m with
  | absolute p => exact p.path.head_isSolid rest
  | relative _ _ => rfl

/-- No word goes on into the further parts of a dotted name. -/
theorem dottedRest_head_all (names : List Name) {rest : List Char}
    (hrest : rest.head?.all (!isWordPart ·) = true) :
    (dottedRest names ++ rest).head?.all (!isWordPart ·) = true := by
  cases names with
  | nil => exact hrest
  | cons _ _ => rfl

section nextFrom

variable {fuel : Nat} {demand : Demand} {stop : Cursor}

theorem nextFrom_spaces (hfuel : 0 < fuel) (hstring : demand.string = false)
    (blanks : List Char) {next : List Char} (hblanks : ∀ b ∈ blanks, b = ' ')
    (hrest : stop.rest = blanks ++ next) (hnext : next.head?.any isSolid = true) :
    nextFrom fuel demand stop = onText fuel stop (stop.advance blanks.length) := by
  obtain ⟨n, rfl⟩ := Nat.exists_eq_add_one_of_ne_zero (Nat.ne_of_gt hfuel)
  cases next with
  | nil => cases hnext
  | cons c cs =>
    refine State.look_spaces ?_ hrest hblanks (by simpa using hnext)
    intro h
    rw [hstring] at h
    cases h

/-- Where no blank stands, what comes next begins at once. -/
theorem nextFrom_solid (hfuel : 0 < fuel) (hstring : demand.string = false)
    (hrest : stop.rest.head?.any isSolid = true) :
    nextFrom fuel demand stop = onText fuel stop stop :=
  nextFrom_spaces hfuel hstring [] (List.forall_mem_nil _) rfl hrest

/-- A space leads to what comes next. -/
theorem nextFrom_space (hfuel : 0 < fuel) (hstring : demand.string = false) {next : List Char}
    (hrest : stop.rest = ' ' :: next) (hnext : next.head?.any isSolid = true) :
    nextFrom fuel demand stop = onText fuel stop (stop.advance 1) :=
  nextFrom_spaces hfuel hstring [' '] (List.forall_mem_singleton.mpr rfl) hrest hnext

theorem nextFrom_lineEnd (hfuel : 0 < fuel) (hdemand : demand.lineEnd = true)
    (hrest : IsLineEnd stop.rest) : nextFrom fuel demand stop = onLineEnd fuel stop := by
  obtain ⟨n, rfl⟩ := Nat.exists_eq_add_one_of_ne_zero (Nat.ne_of_gt hfuel)
  exact State.look_lineEnd hdemand hrest rfl

theorem loop_nextFrom {α : Type} (a : α) (step : α → Parse (Option α)) :
    loop a step (nextFrom fuel demand stop) = iterate step fuel a (nextFrom fuel demand stop) := by
  rw [loop, nextFrom, State.look_fuel]
  rfl

end nextFrom

/-! ## Names and keywords -/

section onText

variable (fuel : Nat) (stop : Cursor) {start : Cursor} {rest : List Char}

theorem onText_isAt (text : String) :
    (onText fuel stop start).isAt text = text.toList.isPrefixOf start.rest := rfl

/-- A name that comes next. -/
theorem onText_word (n : Name) (hstart : start.rest = n.chars ++ rest)
    (hrest : rest.head?.all (!isWordPart ·) = true) :
    (onText fuel stop start).word = String.ofList n.chars := by
  change String.ofList (wordOf start.rest) = _
  rw [hstart, n.wordOf_append hrest]

/-- A letter or underscore begins a word. -/
theorem onText_word_ne {c : Char} {cs : List Char} (hstart : start.rest = c :: cs)
    (hc : Identifier.isAsciiWordStart c = true) : ((onText fuel stop start).word != "") = true := by
  have hword := isAsciiWord_of_start hc
  have hstartOf : (c :: cs).head?.any isWordStart = true := by
    simp [isWordStart_of_ascii (toNat_of_isAsciiWord hword), hc]
  have hpart : isWordPart c = true := by
    rw [isWordPart_of_ascii (toNat_of_isAsciiWord hword), hword]
  change (String.ofList (wordOf start.rest) != "") = true
  rw [hstart, wordOf, if_pos hstartOf, List.takeWhile_cons_of_pos hpart, bne_iff_ne]
  exact fun h => List.cons_ne_nil _ _ (String.ofList_eq_empty_iff.mp h)

theorem name_onText (n : Name) (hstart : start.rest = n.chars ++ rest)
    (hrest : rest.head?.all (!isWordPart ·) = true) (demand : Demand) :
    name demand (onText fuel stop start) =
      .ok (.leaf .identifier start (start.advance n.chars.length),
        nextFrom fuel demand (start.advance n.chars.length)) := by
  have hne : (String.ofList n.chars != "") = true := by
    rw [bne_iff_ne]
    intro h
    exact n.chars_ne_nil (String.ofList_eq_empty_iff.mp h)
  rw [name_eq (onText_word fuel stop n hstart hrest) hne, String.length_ofList]
  rfl

theorem keyword_onText (n : Name) {word : String} (hword : String.ofList n.chars = word)
    (hstart : start.rest = n.chars ++ rest) (hrest : rest.head?.all (!isWordPart ·) = true)
    (demand : Demand) :
    keyword word demand (onText fuel stop start) =
      .ok ([.leaf .mark start (start.advance n.chars.length)],
        nextFrom fuel demand (start.advance n.chars.length)) := by
  have hat : (onText fuel stop start).isAtWord word = true := by
    rw [State.isAtWord, onText_word fuel stop n hstart hrest, hword, beq_self_eq_true]
  rw [keyword_eq hat rfl, ← hword, String.length_ofList]
  rfl

/-- A word that has a space after it and begins a statement. -/
theorem take_spaced (n : Name) (hfuel : 0 < fuel) (hstart : start.rest = n.chars ++ ' ' :: rest)
    (hrest : rest.head?.any isSolid = true) :
    take .mark n.chars.length .nothing (onText fuel stop start) =
      .ok (.leaf .mark start (start.advance n.chars.length),
        onText fuel (start.advance n.chars.length) (start.advance (n.chars.length + 1))) := by
  have hnext := @nextFrom_space fuel .nothing _ hfuel rfl _ (rest_advance _ hstart) hrest
  rw [Cursor.advance_advance] at hnext
  exact congrArg (fun s => Except.ok (_, s)) hnext

/-- A keyword with a space before and after it. -/
theorem keyword_spaced (n : Name) (word : String) (hword : String.ofList n.chars = word)
    (hfuel : 0 < fuel) {next : List Char} (hstop : stop.rest = ' ' :: (n.chars ++ ' ' :: next))
    (hnext : next.head?.any isSolid = true) :
    (∃ a b, keyword word .nothing (onText fuel stop (stop.advance 1)) =
        .ok ([.leaf .mark a b], onText fuel (stop.advance (1 + n.chars.length))
          (stop.advance (1 + n.chars.length + 1)))) ∧
      (stop.advance (1 + n.chars.length + 1)).rest = next := by
  have hstart : (stop.advance 1).rest = n.chars ++ ' ' :: next := rest_advance [' '] hstop
  have hend := rest_advance n.chars hstart
  rw [keyword_onText fuel stop n hword hstart rfl, nextFrom_space hfuel rfl hend hnext,
    Cursor.advance_advance, Cursor.advance_advance]
  rw [Cursor.advance_advance] at hend
  refine ⟨⟨_, _, rfl⟩, ?_⟩
  rw [← Cursor.advance_advance]
  exact rest_advance [' '] hend

/-- A name is no mark. -/
theorem isAt_name (n : Name) (hstart : start.rest = n.chars ++ rest) {text : String}
    (htext : text.toList.head?.any (!Identifier.isAsciiWordStart ·) = true) :
    (onText fuel stop start).isAt text = false := by
  obtain ⟨c, cs, hn, hc⟩ := n.exists_cons
  rw [onText_isAt, hstart, hn]
  cases htoList : text.toList with
  | nil =>
    rw [htoList] at htext
    cases htext
  | cons d ds =>
    rw [htoList] at htext
    have hne : (d == c) = false := by
      rw [beq_eq_false_iff_ne]
      rintro rfl
      simp [hc] at htext
    rw [List.cons_append, List.isPrefixOf, hne, Bool.false_and]

theorem DottedName.isAt_onText (d : DottedName) (hstart : start.rest = d.chars ++ rest)
    {text : String} (htext : text.toList.head?.any (!Identifier.isAsciiWordStart ·) = true) :
    (onText fuel stop start).isAt text = false :=
  isAt_name fuel stop d.first (hstart.trans (d.chars_append rest)) htext

theorem DottedName.word_onText (d : DottedName) (hstart : start.rest = d.chars ++ rest)
    (hrest : rest.head?.all (!isWordPart ·) = true) :
    (onText fuel stop start).word = String.ofList d.first.chars :=
  onText_word fuel stop d.first (hstart.trans (d.chars_append rest)) (dottedRest_head_all _ hrest)

theorem isAt_mark (text : String) (hstart : start.rest = text.toList ++ rest) :
    (onText fuel stop start).isAt text = true := by
  rw [onText_isAt, hstart, List.isPrefixOf_iff_prefix]
  exact List.prefix_append _ _

theorem mark_onText (text : String) (hstart : start.rest = text.toList ++ rest)
    (demand : Demand) :
    mark text demand (onText fuel stop start) =
      .ok ([.leaf .mark start (start.advance text.toList.length)],
        nextFrom fuel demand (start.advance text.toList.length)) := by
  rw [mark_eq (isAt_mark fuel stop text hstart) rfl, String.length_toList]
  rfl

end onText

/-! ## Dotted names -/

/-- A list has no more members than the text that each of them adds something to. -/
theorem length_le_length_flatMap {α β : Type} {f : α → List β} (hf : ∀ a, f a ≠ [])
    (l : List α) : l.length ≤ (l.flatMap f).length := by
  induction l with
  | nil => exact Nat.le_refl 0
  | cons a l ih =>
    have := List.length_pos_iff.mpr (hf a)
    rw [List.length_cons, List.flatMap_cons, List.length_append]
    omega

/-- One step of the loop that reads a dotted name. -/
def dottedStep (after : Demand) (chunks : List (List Tree)) :
    Parse (Option (List (List Tree))) := do
  if ← query (·.isAt ".") then
    let dot ← mark "." .nothing
    return some ((← child (name after)) :: dot :: chunks)
  else return none

theorem dottedName_eq (after : Demand) :
    dottedName after = do
      let first ← name after
      let chunks ← loop [[first]] (dottedStep after)
      return .node .dottedName chunks.reverse.flatten := rfl

section dottedName

variable {fuel : Nat} {after : Demand} {start stop : Cursor} {rest : List Char}

theorem dottedStep_dot (n : Name) (hfuel : 0 < fuel) (hafter : after.string = false)
    (hstop : stop.rest = '.' :: n.chars ++ rest) (hrest : rest.head?.all (!isWordPart ·) = true)
    {chunks : List (List Tree)} (hchunks : Covers chunks.reverse.flatten start stop) :
    ∃ chunks', dottedStep after chunks (nextFrom fuel after stop) =
        .ok (some chunks', nextFrom fuel after (stop.advance (1 + n.chars.length))) ∧
      Covers chunks'.reverse.flatten start (stop.advance (1 + n.chars.length)) := by
  have hname : (stop.advance 1).rest = n.chars ++ rest := rest_advance ['.'] hstop
  have hnext : nextFrom fuel after stop = onText fuel stop stop :=
    nextFrom_solid hfuel hafter (by rw [hstop]; rfl)
  have hfirst : nextFrom fuel .nothing (stop.advance 1) =
      onText fuel (stop.advance 1) (stop.advance 1) :=
    nextFrom_solid hfuel rfl (by rw [hname]; exact n.head_isSolid rest)
  have hmark : mark "." .nothing (onText fuel stop stop) =
      .ok ([.leaf .mark stop (stop.advance 1)],
        onText fuel (stop.advance 1) (stop.advance 1)) := by
    rw [mark_onText fuel stop "." hstop]
    exact congrArg (fun s => Except.ok ([_], s)) hfirst
  have hchild := child_of_ok (name_onText fuel (stop.advance 1) n hname hrest after) rfl
  rw [Cursor.advance_advance] at hchild
  refine ⟨[.leaf .identifier (stop.advance 1) (stop.advance (1 + n.chars.length))] ::
    [.leaf .mark stop (stop.advance 1)] :: chunks, ?_, ?_⟩
  · rw [hnext, dottedStep, bind_query, if_pos (isAt_mark fuel stop "." hstop), bind_of_ok hmark,
      bind_of_ok hchild]
    rfl
  · simp only [List.reverse_cons, List.flatten_append, List.flatten_cons, List.flatten_nil,
      List.append_nil]
    exact (hchunks.append (.leaf rfl stop _)).append (.leaf rfl (stop.advance 1) _)

theorem dottedStep_end {chunks : List (List Tree)} {s : State} (hend : s.isAt "." = false) :
    dottedStep after chunks s = .ok (none, s) := by
  rw [dottedStep, bind_query, hend]
  rfl

/-- The loop reads the parts of a dotted name. -/
theorem iterate_dottedStep {names : List Name} {n : Nat} (hn : names.length < n)
    (hfuel : 0 < fuel) (hafter : after.string = false)
    (hstop : stop.rest = dottedRest names ++ rest) (hrest : rest.head?.all (!isWordPart ·) = true)
    (hend : (nextFrom fuel after (stop.advance (dottedRest names).length)).isAt "." = false)
    {chunks : List (List Tree)} (hchunks : Covers chunks.reverse.flatten start stop) :
    ∃ chunks', iterate (dottedStep after) n chunks (nextFrom fuel after stop) =
        .ok (chunks', nextFrom fuel after (stop.advance (dottedRest names).length)) ∧
      Covers chunks'.reverse.flatten start (stop.advance (dottedRest names).length) := by
  induction names generalizing n stop chunks with
  | nil =>
    obtain ⟨n, rfl⟩ := Nat.exists_eq_add_one_of_ne_zero (Nat.ne_of_gt hn)
    exact ⟨chunks, iterate_of_none (dottedStep_end hend) n, hchunks⟩
  | cons name names ih =>
    obtain ⟨n, rfl⟩ := Nat.exists_eq_add_one_of_ne_zero (Nat.ne_zero_of_lt hn)
    have hlength : (dottedRest (name :: names)).length =
        1 + name.chars.length + (dottedRest names).length := by
      simp [dottedRest]
      omega
    have hstop' : stop.rest = '.' :: name.chars ++ (dottedRest names ++ rest) := by
      simp [hstop, dottedRest]
    have hrest' : (dottedRest names ++ rest).head?.all (!isWordPart ·) = true := by
      cases names with
      | nil => exact hrest
      | cons _ _ => rfl
    obtain ⟨chunks', hstep, hchunks'⟩ := dottedStep_dot name hfuel hafter hstop' hrest' hchunks
    have hadvance : (stop.advance (1 + name.chars.length)).rest = dottedRest names ++ rest := by
      rw [Nat.add_comm]
      exact rest_advance ('.' :: name.chars) hstop'
    rw [hlength, ← Cursor.advance_advance] at hend ⊢
    rw [iterate_of_some hstep]
    exact ih (Nat.lt_of_succ_lt_succ hn) hadvance hend hchunks'

theorem dottedName_onText (d : DottedName) (stop : Cursor) (hfuel : start.rest.length < fuel)
    (hafter : after.string = false) (hstart : start.rest = d.chars ++ rest)
    (hrest : rest.head?.all (!isWordPart ·) = true)
    (hend : (nextFrom fuel after (start.advance d.chars.length)).isAt "." = false) :
    ∃ t, dottedName after (onText fuel stop start) =
        .ok (t, nextFrom fuel after (start.advance d.chars.length)) ∧
      t.kind = .dottedName ∧ Covers [t] start (start.advance d.chars.length) := by
  have hstart' : start.rest = d.first.chars ++ (dottedRest d.others ++ rest) :=
    hstart.trans (d.chars_append rest)
  have hrest' := dottedRest_head_all d.others hrest
  have hcount : d.others.length < fuel := by
    have hle : d.others.length ≤ (dottedRest d.others).length :=
      length_le_length_flatMap (fun _ => List.cons_ne_nil _ _) d.others
    rw [hstart', List.length_append, List.length_append] at hfuel
    omega
  have hfirst : Covers (List.flatten [[Tree.leaf .identifier start
      (start.advance d.first.chars.length)]].reverse) start
      (start.advance d.first.chars.length) := .leaf rfl _ _
  rw [DottedName.chars, List.length_append, ← Cursor.advance_advance] at hend ⊢
  obtain ⟨chunks, hloop, hchunks⟩ := iterate_dottedStep hcount (Nat.zero_lt_of_lt hfuel) hafter
    (rest_advance _ hstart') hrest hend hfirst
  refine ⟨_, ?_, rfl, hchunks.node .dottedName rfl⟩
  rw [← loop_nextFrom] at hloop
  rw [dottedName_eq, bind_of_ok (name_onText fuel stop d.first hstart' hrest' after),
    bind_of_ok hloop]
  rfl

end dottedName

/-! ## Entries -/

/-- A tree that makes a binding and no import. -/
structure Binds (t : Tree) (b : Binding) : Prop where
  isNamed : t.isNamed = true
  binding_eq : t.binding? = some b
  fromBinding_eq : t.fromBinding? = some b
  imports_eq : t.imports = []

theorem Binds.inField {t : Tree} {b : Binding} (h : Binds t b) (field : Field) :
    Binds (t.inField field) b :=
  ⟨h.isNamed, h.binding_eq, h.fromBinding_eq, (Tree.imports_inField field t).trans h.imports_eq⟩

def EndsEntry (rest : List Char) : Prop := IsLineEnd rest ∨ ∃ cs, rest = ',' :: cs

namespace EndsEntry

variable {fuel : Nat} {stop : Cursor} {rest : List Char}

theorem head_all (h : EndsEntry rest) : rest.head?.all (!isWordPart ·) = true := by
  rcases h with (rfl | ⟨cs, rfl, _⟩) | ⟨cs, rfl⟩
  · rfl
  · rw [List.head?_cons]
    decide
  · rfl

/-- Neither a word nor a dot comes next. -/
theorem nextFrom_word (hfuel : 0 < fuel) (h : EndsEntry stop.rest) :
    (nextFrom fuel atEnd stop).word = "" ∧ (nextFrom fuel atEnd stop).isAt "." = false := by
  rcases h with h | ⟨cs, h⟩
  · rw [nextFrom_lineEnd hfuel rfl h]
    exact ⟨rfl, rfl⟩
  · rw [nextFrom_solid hfuel rfl (by rw [h]; rfl), onText_isAt, h]
    refine ⟨?_, rfl⟩
    change String.ofList (wordOf stop.rest) = ""
    rw [h]
    rfl

end EndsEntry

theorem renameText_some (n : Name) :
    renameText (some n) = ' ' :: (asWord.chars ++ ' ' :: n.chars) := rfl

section importedName

variable {fuel : Nat} {start : Cursor} {rest : List Char}

theorem binds_dottedName {d : DottedName} {t : Tree} (hkind : t.kind = .dottedName)
    (hcovers : Covers [t] start (start.advance d.chars.length))
    (hstart : start.rest = d.chars ++ rest) : Binds t ⟨String.ofList d.chars, none⟩ := by
  have hbinding : t.binding? = some ⟨String.ofList d.chars, none⟩ := by
    rw [Tree.binding?, hkind, hcovers.text_eq hstart]
  refine ⟨?_, hbinding, ?_, hcovers.imports_eq t List.mem_cons_self⟩
  · rw [Tree.isNamed, hkind]
    rfl
  · rw [Tree.fromBinding?, hkind, if_neg (by decide), hbinding]

/-- A tree for a path that is given another name. -/
theorem binds_renamedImport {d : DottedName} {n : Name} {t word label : Tree}
    (ht : t.imports = []) (hword : word.imports = []) (hlabel : label.imports = [])
    (htext : t.text = String.ofList d.chars) (hlabelText : label.text = String.ofList n.chars)
    (hfield : word.field = none) :
    Binds (.node .renamedImport [t.inField .name, word, label.inField .rename])
      ⟨String.ofList d.chars, some (String.ofList n.chars)⟩ := by
  have hne : d.chars ≠ [] := by
    obtain ⟨c, cs, hd, _⟩ := d.exists_cons
    rw [hd]
    exact List.cons_ne_nil c cs
  have hname : (t.inField .name).text = String.ofList d.chars := htext
  have hrename : (label.inField .rename).text = String.ofList n.chars := hlabelText
  have hbinding : Tree.binding?
      (.node .renamedImport [t.inField .name, word, label.inField .rename]) =
        some ⟨String.ofList d.chars, some (String.ofList n.chars)⟩ := by
    have hfirst : Tree.child? (.node .renamedImport [t.inField .name, word, label.inField .rename])
        .name = some (t.inField .name) := rfl
    have hlast : Tree.child? (.node .renamedImport [t.inField .name, word, label.inField .rename])
        .rename = some (label.inField .rename) := by
      simp [Tree.child?, Tree.node, Tree.inField, hfield]
    unfold Tree.binding?
    rw [hfirst, hlast]
    change (do
      let name ← some (t.inField .name).text
      guard (name != "")
      return (⟨name, some (label.inField .rename).text⟩ : Binding)) = _
    rw [hname, hrename]
    simp [guard, hne]
  refine ⟨rfl, hbinding, ?_, ?_⟩
  · rw [Tree.fromBinding?, if_neg (by intro h; cases h), hbinding]
  · rw [Tree.imports_eq, Tree.importsHere_eq_nil rfl]
    simp [Tree.node, Tree.imports_inField, ht, hword, hlabel]

/-- After a path that is given another name, `as` and the name are read. -/
theorem rename_onText (n : Name) {stop : Cursor} (hfuel : 0 < fuel)
    (hstop : stop.rest = renameText (some n) ++ rest) (hrest : EndsEntry rest) :
    (nextFrom fuel atEnd stop).isAt "." = false ∧
      (nextFrom fuel atEnd stop).isAtWord "as" = true ∧
      ∃ (word label : Tree) (s : State),
        keyword "as" .nothing (nextFrom fuel atEnd stop) = .ok ([word], s) ∧
        childAs .rename (name atEnd) s = .ok ([label.inField .rename],
          nextFrom fuel atEnd (stop.advance (renameText (some n)).length)) ∧
        word.imports = [] ∧ word.field = none ∧ label.imports = [] ∧
        label.text = String.ofList n.chars := by
  have hstop' : stop.rest = ' ' :: (asWord.chars ++ ' ' :: (n.chars ++ rest)) := by
    rw [hstop, renameText_some]
    simp
  have hword : (stop.advance 1).rest = asWord.chars ++ ' ' :: (n.chars ++ rest) :=
    rest_advance [' '] hstop'
  obtain ⟨⟨_, _, has⟩, hname⟩ :=
    keyword_spaced fuel stop asWord "as" rfl hfuel hstop' (n.head_isSolid rest)
  have hlabel := name_onText fuel (stop.advance (1 + asWord.chars.length)) n hname hrest.head_all
    atEnd
  have hlength : 1 + asWord.chars.length + 1 + n.chars.length = (renameText (some n)).length := by
    rw [renameText_some]
    simp [asWord]
    omega
  have htext := (@Covers.leaf .identifier rfl _ _).text_eq hname
  rw [Cursor.advance_advance, hlength] at hlabel htext
  rw [nextFrom_space hfuel rfl hstop' (asWord.head_isSolid _)]
  refine ⟨isAt_name fuel stop asWord hword rfl, ?_, _, _, _, has,
    childAs_of_ok hlabel rfl .rename, rfl, rfl, rfl, htext⟩
  rw [State.isAtWord, onText_word fuel stop asWord hword rfl]
  rfl

theorem importedName_onText (e : Entry) (stop : Cursor) (hfuel : start.rest.length < fuel)
    (hstart : start.rest = e.chars ++ rest) (hrest : EndsEntry rest) :
    ∃ t, importedName atEnd (onText fuel stop start) =
        .ok (t, nextFrom fuel atEnd (start.advance e.chars.length)) ∧ Binds t e.binding := by
  obtain ⟨path, rename⟩ := e
  have hpos : 0 < fuel := Nat.zero_lt_of_lt hfuel
  have hpath : start.rest = path.chars ++ (renameText rename ++ rest) := by
    rw [hstart, Entry.chars, List.append_assoc]
  have hafterPath := rest_advance _ hpath
  rw [Entry.chars, List.length_append, ← Cursor.advance_advance]
  cases rename with
  | none =>
    have hfacts := EndsEntry.nextFrom_word hpos (by rw [hafterPath]; exact hrest)
    obtain ⟨t, hread, hkind, hcovers⟩ :=
      dottedName_onText path stop hfuel rfl hpath hrest.head_all hfacts.2
    have has : (nextFrom fuel atEnd (start.advance path.chars.length)).isAtWord "as" = false := by
      rw [State.isAtWord, hfacts.1]
      rfl
    refine ⟨t, ?_, binds_dottedName hkind hcovers hpath⟩
    rw [importedName, bind_of_ok hread, bind_query, has]
    rfl
  | some n =>
    obtain ⟨hdot, hisAs, word, label, s, has, hname, hword, hfield, hlabel, htext⟩ :=
      rename_onText n hpos hafterPath hrest
    obtain ⟨t, hread, hkind, hcovers⟩ := dottedName_onText path stop hfuel rfl hpath rfl hdot
    refine ⟨_, ?_, binds_renamedImport (hcovers.imports_eq t List.mem_cons_self) hword hlabel
      (hcovers.text_eq hpath) htext hfield⟩
    rw [importedName, bind_of_ok hread, bind_query, if_pos hisAs, bind_of_ok has, bind_of_ok hname]
    rfl

end importedName

/-! ## Import lists -/

/-- Trees that make bindings and no imports. -/
structure Lists (ts : List Tree) (bs : List Binding) : Prop where
  bindings_eq : (ts.filter Tree.isNamed).filterMap Tree.binding? = bs
  fromBindings_eq : (ts.filter Tree.isNamed).filterMap Tree.fromBinding? = bs
  imports_eq : ∀ t ∈ ts, t.imports = []

namespace Lists

theorem one {t : Tree} {b : Binding} (h : Binds t b) : Lists [t] [b] := by
  refine ⟨?_, ?_, ?_⟩
  · simp [h.isNamed, h.binding_eq]
  · simp [h.isNamed, h.fromBinding_eq]
  · intro u hu
    rw [List.mem_singleton.mp hu, h.imports_eq]

theorem mark (start stop : Cursor) : Lists [.leaf .mark start stop] [] :=
  ⟨rfl, rfl, fun t ht => by
    rw [List.mem_singleton.mp ht]
    rfl⟩

theorem append {ts us : List Tree} {bs cs : List Binding} (hts : Lists ts bs) (hus : Lists us cs) :
    Lists (ts ++ us) (bs ++ cs) := by
  refine ⟨?_, ?_, ?_⟩
  · rw [List.filter_append, List.filterMap_append, hts.bindings_eq, hus.bindings_eq]
  · rw [List.filter_append, List.filterMap_append, hts.fromBindings_eq, hus.fromBindings_eq]
  · intro t ht
    exact (List.mem_append.mp ht).elim (hts.imports_eq t) (hus.imports_eq t)

end Lists

/-- One step of the loop that reads a list after its first element. -/
def itemsStep (element : Parse (List Tree)) (afterComma : Demand) (goesOn : State → Bool) :
    List (List Tree) × Nat × Bool → Parse (Option (List (List Tree) × Nat × Bool)) :=
  fun (chunks, count, isTrailed) => do
    if isTrailed || !(← query (·.isAt ",")) then return none
    let comma ← Parse.mark "," afterComma
    if ← query goesOn then
      return some ((← element) :: comma :: chunks, count + 1, false)
    else return some (comma :: chunks, count, true)

theorem items_eq (element : Parse (List Tree)) (afterComma : Demand) (goesOn : State → Bool) :
    items element afterComma goesOn = do
      let first ← element
      let (chunks, count, isTrailed) ←
        loop ([first], 1, false) (itemsStep element afterComma goesOn)
      return ⟨chunks.reverse.flatten, count, isTrailed⟩ := rfl

abbrev entryParser : Parse (List Tree) := childAs .name (importedName atEnd)

/-- Whether an entry comes next after a comma. -/
abbrev atEntry (s : State) : Bool := s.word != ""

section importList

variable {fuel : Nat} {start stop : Cursor} {rest : List Char}

theorem Entry.exists_cons (e : Entry) :
    ∃ c cs, e.chars = c :: cs ∧ Identifier.isAsciiWordStart c = true := by
  obtain ⟨c, cs, h, hc⟩ := e.path.exists_cons
  exact ⟨c, cs ++ renameText e.rename, by rw [chars, h, List.cons_append], hc⟩

theorem itemsStep_end (hfuel : 0 < fuel) (hrest : IsLineEnd stop.rest)
    (chunks : List (List Tree)) (count : Nat) :
    itemsStep entryParser atEnd atEntry (chunks, count, false) (nextFrom fuel atEnd stop) =
      .ok (none, nextFrom fuel atEnd stop) := by
  rw [nextFrom_lineEnd hfuel rfl hrest]
  rfl

theorem itemsStep_entry (e : Entry) (hfuel : stop.rest.length < fuel)
    (hstop : stop.rest = ',' :: ' ' :: (e.chars ++ rest)) (hrest : EndsEntry rest)
    {chunks : List (List Tree)} {bs : List Binding} (hchunks : Lists chunks.reverse.flatten bs)
    (count : Nat) :
    ∃ chunks', itemsStep entryParser atEnd atEntry (chunks, count, false)
          (nextFrom fuel atEnd stop) =
        .ok (some (chunks', count + 1, false),
          nextFrom fuel atEnd (stop.advance (2 + e.chars.length))) ∧
      Lists chunks'.reverse.flatten (bs ++ [e.binding]) := by
  obtain ⟨c, cs, hchars, hc⟩ := e.exists_cons
  have hpos := Nat.zero_lt_of_lt hfuel
  have hcomma : (stop.advance 1).rest = ' ' :: (e.chars ++ rest) := rest_advance [','] hstop
  have hentry : (stop.advance 2).rest = e.chars ++ rest := rest_advance [',', ' '] hstop
  have hsolid : (e.chars ++ rest).head?.any isSolid = true := by
    rw [hchars, List.cons_append]
    exact isSolid_of_isAsciiWord (isAsciiWord_of_start hc)
  have hmark : mark "," atEnd (onText fuel stop stop) =
      .ok ([.leaf .mark stop (stop.advance 1)], onText fuel (stop.advance 1) (stop.advance 2)) := by
    rw [mark_onText fuel stop "," hstop]
    have hnext := @nextFrom_space fuel atEnd _ hpos rfl _ hcomma hsolid
    rw [Cursor.advance_advance] at hnext
    exact congrArg (fun s => Except.ok ([_], s)) hnext
  have hcomes : atEntry (onText fuel (stop.advance 1) (stop.advance 2)) = true := by
    rw [hchars, List.cons_append] at hentry
    exact onText_word_ne fuel _ hentry hc
  have hfuel' : (stop.advance 2).rest.length < fuel := by
    rw [hentry]
    rw [hstop] at hfuel
    simp only [List.length_cons] at hfuel
    omega
  obtain ⟨t, hread, hbinds⟩ := importedName_onText e (stop.advance 1) hfuel' hentry hrest
  rw [Cursor.advance_advance] at hread
  refine ⟨[t.inField .name] :: [.leaf .mark stop (stop.advance 1)] :: chunks, ?_, ?_⟩
  · rw [nextFrom_solid hpos rfl (by rw [hstop]; rfl), itemsStep, bind_query]
    simp only [isAt_mark fuel stop "," hstop, Bool.not_true, Bool.or_false, Bool.false_eq_true,
      if_false]
    rw [bind_of_ok hmark, bind_query, if_pos hcomes,
      bind_of_ok (childAs_of_ok hread rfl .name)]
    rfl
  · simp only [List.reverse_cons, List.flatten_append, List.flatten_cons, List.flatten_nil,
      List.append_nil]
    have := (hchunks.append (.mark stop (stop.advance 1))).append (.one (hbinds.inField .name))
    rwa [List.append_nil] at this

/-- The loop reads the entries of an import list. -/
theorem iterate_itemsStep {entries : List Entry} {n : Nat} (hn : entries.length < n)
    (hfuel : stop.rest.length < fuel) (hstop : stop.rest = entriesRest entries ++ rest)
    (hrest : IsLineEnd rest) {chunks : List (List Tree)} {bs : List Binding}
    (hchunks : Lists chunks.reverse.flatten bs) (count : Nat) :
    ∃ chunks' count', iterate (itemsStep entryParser atEnd atEntry) n (chunks, count, false)
          (nextFrom fuel atEnd stop) =
        .ok ((chunks', count', false),
          onLineEnd fuel (stop.advance (entriesRest entries).length)) ∧
      Lists chunks'.reverse.flatten (bs ++ entries.map Entry.binding) := by
  induction entries generalizing n stop chunks bs count with
  | nil =>
    obtain ⟨n, rfl⟩ := Nat.exists_eq_add_one_of_ne_zero (Nat.ne_of_gt hn)
    have hline : IsLineEnd stop.rest := by rwa [hstop]
    have hpos := Nat.zero_lt_of_lt hfuel
    refine ⟨chunks, count, ?_, by rwa [List.map_nil, List.append_nil]⟩
    rw [iterate_of_none (itemsStep_end hpos hline chunks count), nextFrom_lineEnd hpos rfl hline]
    rfl
  | cons e entries ih =>
    obtain ⟨n, rfl⟩ := Nat.exists_eq_add_one_of_ne_zero (Nat.ne_zero_of_lt hn)
    have hlength : (entriesRest (e :: entries)).length =
        2 + e.chars.length + (entriesRest entries).length := by
      simp [entriesRest]
      omega
    have hstop' : stop.rest = ',' :: ' ' :: (e.chars ++ (entriesRest entries ++ rest)) := by
      simp [hstop, entriesRest]
    have hrest' : EndsEntry (entriesRest entries ++ rest) := by
      cases entries with
      | nil => exact .inl hrest
      | cons _ _ => exact .inr ⟨_, rfl⟩
    obtain ⟨chunks', hstep, hchunks'⟩ := itemsStep_entry e hfuel hstop' hrest' hchunks count
    have hadvance : (stop.advance (2 + e.chars.length)).rest = entriesRest entries ++ rest := by
      rw [Nat.add_comm]
      exact rest_advance (',' :: ' ' :: e.chars) hstop'
    have hfuel' : (stop.advance (2 + e.chars.length)).rest.length < fuel := by
      rw [Cursor.advance_rest_length]
      omega
    obtain ⟨last, total, hloop, hlast⟩ :=
      ih (Nat.lt_of_succ_lt_succ hn) hfuel' hadvance hchunks' (count + 1)
    refine ⟨last, total, ?_, ?_⟩
    · rw [iterate_of_some hstep, hloop, Cursor.advance_advance, hlength]
    · rwa [List.append_assoc] at hlast

theorem importList_onText (es : Entries) (stop : Cursor) (hfuel : start.rest.length < fuel)
    (hstart : start.rest = es.chars ++ rest) (hrest : IsLineEnd rest) :
    ∃ ts, importList atEnd (onText fuel stop start) =
        .ok (ts, onLineEnd fuel (start.advance es.chars.length)) ∧ Lists ts es.bindings := by
  have hstart' : start.rest = es.first.chars ++ (entriesRest es.others ++ rest) := by
    rw [hstart, Entries.chars, List.append_assoc]
  have hends : EndsEntry (entriesRest es.others ++ rest) := by
    cases es.others with
    | nil => exact .inl hrest
    | cons _ _ => exact .inr ⟨_, rfl⟩
  have hcount : es.others.length < fuel := by
    have hle : es.others.length ≤ (entriesRest es.others).length :=
      length_le_length_flatMap (fun _ => List.cons_ne_nil _ _) es.others
    rw [hstart', List.length_append, List.length_append] at hfuel
    omega
  have hfuel' : (start.advance es.first.chars.length).rest.length < fuel := by
    rw [Cursor.advance_rest_length]
    omega
  obtain ⟨t, hread, hbinds⟩ := importedName_onText es.first stop hfuel hstart' hends
  have hfirst : Lists (List.flatten [[t.inField .name]].reverse) [es.first.binding] :=
    .one (hbinds.inField .name)
  obtain ⟨chunks, count, hloop, hchunks⟩ :=
    iterate_itemsStep hcount hfuel' (rest_advance _ hstart') hrest hfirst 1
  rw [← loop_nextFrom] at hloop
  refine ⟨_, ?_, hchunks⟩
  have hitems : items entryParser atEnd atEntry (onText fuel stop start) =
      .ok (⟨chunks.reverse.flatten, count, false⟩,
        onLineEnd fuel (start.advance es.chars.length)) := by
    rw [items_eq, bind_of_ok (childAs_of_ok hread rfl .name), bind_of_ok hloop,
      Cursor.advance_advance, Entries.chars, List.length_append]
    rfl
  exact map_of_ok hitems _

end importList

end SymbolAtlas.Python
