import SymbolAtlas.Proofs.Token.Reading

/-! # What lies between the tokens

The tokens of a source leave nothing out but white space, comments and characters at which no
token can begin: these and the tokens tile the source, and so they do with the code inside each
interpolation of a template literal, at every depth.
-/

namespace SymbolAtlas

open Identifier

namespace Lexeme

/-- A character at which neither a token nor a comment can begin. -/
def isStray (c : Char) : Bool :=
  !(isNameStart c || isAsciiDigit c || c == '"' || c == '\'' || c == '\x60' || c == '/' ||
    marks.contains c || operators.any (·.toList.head? == some c))

/-- The text `gap` is made of white space, comments and stray characters, and `rest` follows it. A
line comment ends before the next line feed and a block comment with the first mark that closes
it; either may end with the source. -/
inductive Skipped : List Char → List Char → Prop
  | nil {rest : List Char} : Skipped [] rest
  | blank {c : Char} {gap rest : List Char} (hc : isGap c = true) (next : Skipped gap rest) :
      Skipped (c :: gap) rest
  | stray {c : Char} {gap rest : List Char} (hc : isStray c = true) (next : Skipped gap rest) :
      Skipped (c :: gap) rest
  | lineComment {text gap rest : List Char} (htext : '\n' ∉ text)
      (hend : ∀ c ∈ (gap ++ rest).head?, c = '\n') (next : Skipped gap rest) :
      Skipped ('/' :: '/' :: text ++ gap) rest
  | blockComment {text gap rest : List Char} (htext : ¬ ['*', '/'] <:+: text ++ ['*'])
      (next : Skipped gap rest) : Skipped ('/' :: '*' :: text ++ '*' :: '/' :: gap) rest
  | openComment {text : List Char} (htext : ¬ ['*', '/'] <:+: text) :
      Skipped ('/' :: '*' :: text) []

theorem singleton_mem_operators {op : String} {c : Char} (hop : op ∈ operators)
    (hc : op.toList.head? = some c) : String.singleton c ∈ operators := by
  have every : ∀ op ∈ operators,
      op.toList.head?.all (fun c => operators.contains (String.singleton c)) = true := by decide
  have hcontains := every op hop
  rw [hc, Option.all_some, List.contains_eq_mem, decide_eq_true_eq] at hcontains
  exact hcontains

/-- Where no mark and no operator begins, they cannot begin with this character at all. -/
theorem isStray_of_none {c : Char} {cs : List Char} (hname : isNameStart c = false)
    (hdigit : isAsciiDigit c = false) (hslash : c ≠ '/') (hdouble : c ≠ '"') (hsingle : c ≠ '\'')
    (hback : c ≠ '\x60') (hmark : markLength? (c :: cs) = none)
    (hoperator : operatorLength? (c :: cs) = none) : isStray c = true := by
  have hoperators : operators.any (·.toList.head? == some c) = false := by
    rw [Bool.eq_false_iff]
    intro h
    obtain ⟨op, hop, hhead⟩ := List.any_eq_true.mp h
    have hsingleton := singleton_mem_operators hop (beq_iff_eq.mp hhead)
    have hnone := List.find?_eq_none.mp (Option.map_eq_none_iff.mp hoperator) _ hsingleton
    exact hnone (by simp)
  simp only [isStray, hname, hdigit, marks_of_markLength_eq_none hmark, hoperators,
    beq_eq_false_iff_ne.mpr hslash, beq_eq_false_iff_ne.mpr hdouble,
    beq_eq_false_iff_ne.mpr hsingle, beq_eq_false_iff_ne.mpr hback, Bool.or_false, Bool.not_false]

/-- What the scanner passes over is a blank, a comment or a stray character. -/
theorem gap_cases {regexMayStart : Bool} {c : Char} {cs : List Char} {n : Nat}
    (h : head regexMayStart c cs = .gap n) :
    (isGap c = true ∨ isStray c = true) ∧ n = 1 ∨
      (∃ ds, c = '/' ∧ cs = '/' :: ds ∧ n = 1 + lineLength cs) ∨
        ∃ ds, c = '/' ∧ cs = '*' :: ds ∧ n = 2 + throughCommentEnd ds := by
  cases IsHead.of_head h with
  | gap hc => exact .inl ⟨.inl hc, rfl⟩
  | slash hslash h =>
    unfold afterSlash at h
    split at h
    · cases h
      exact .inr (.inl ⟨_, hslash, rfl, rfl⟩)
    · cases h
      exact .inr (.inr ⟨_, hslash, rfl, rfl⟩)
    · split at h <;> cases h
  | stray hslash hquote hback hname hnumber hmark hoperator =>
    simp only [Bool.or_eq_true, not_or, Bool.not_eq_true] at hquote hname hnumber
    exact .inl ⟨.inr (isStray_of_none hname.1 hnumber.1 hslash hquote.1 hquote.2 hback hmark
      hoperator), rfl⟩

/-- A text up to its first line feed, and from there on. -/
theorem exists_line (cs : List Char) :
    ∃ line rest, cs = line ++ rest ∧ lineLength cs = line.length ∧ '\n' ∉ line ∧
      ∀ c ∈ rest.head?, c = '\n' := by
  refine ⟨cs.takeWhile (· != '\n'), cs.dropWhile (· != '\n'),
    List.takeWhile_append_dropWhile.symm, rfl, ?_, ?_⟩
  · intro h
    have := List.all_eq_true.mp List.all_takeWhile _ h
    simp at this
  · intro c hc
    have := List.head?_dropWhile_not (· != '\n') cs
    rw [Option.mem_def.mp hc] at this
    simpa using this

/-- What the scanner passes over may be skipped. -/
theorem skipped_of_gap {regexMayStart : Bool} {c : Char} {cs gap rest : List Char} {n : Nat}
    (h : head regexMayStart c cs = .gap n) (hdrop : (c :: cs).drop n = gap ++ rest)
    (next : Skipped gap rest) : Skipped ((c :: cs).take n ++ gap) rest := by
  rcases gap_cases h with ⟨hc, rfl⟩ | ⟨ds, rfl, rfl, rfl⟩ | ⟨ds, rfl, rfl, rfl⟩
  · rcases hc with hc | hc
    · exact .blank hc next
    · exact .stray hc next
  · obtain ⟨line, more, rfl, hlength, hline, hmore⟩ := exists_line ds
    have hcount : 1 + lineLength ('/' :: (line ++ more)) = line.length + 2 := by
      rw [← hlength]
      simp [lineLength]
      omega
    rw [hcount] at hdrop ⊢
    simp only [List.drop_succ_cons, List.drop_left] at hdrop
    rw [List.take_succ_cons, List.take_succ_cons, List.take_left]
    exact .lineComment hline (hdrop ▸ hmore) next
  · rw [Nat.add_comm] at hdrop ⊢
    rcases throughCommentEnd_cases ds with ⟨text, more, rfl, hlength, htext⟩ | ⟨hlength, htext⟩
    · have hclosed : text ++ '*' :: '/' :: more = (text ++ ['*', '/']) ++ more := by
        rw [List.append_assoc]
        rfl
      have hcount : text.length + 2 = (text ++ ['*', '/']).length := by
        rw [List.length_append]
        rfl
      rw [hlength, List.take_succ_cons, List.take_succ_cons, hclosed, hcount, List.take_left]
      simpa using Skipped.blockComment htext next
    · rw [hlength] at hdrop ⊢
      obtain ⟨rfl, rfl⟩ : gap = [] ∧ rest = [] := by
        simpa using hdrop
      simpa using Skipped.openComment htext

end Lexeme

open Lexeme

mutual

/-- The tokens `ts` and what may be skipped make up `text`, which begins at `p` and is followed by
`rest`; every token begins where its position says. -/
inductive Tiles : Position → List Char → List Token → List Char → Prop
  | done {p : Position} {gap rest : List Char} (hgap : Skipped gap rest) : Tiles p gap [] rest
  | plain {p : Position} {gap text rest : List Char} {kind : Token.Kind} {s : String}
      {ts : List Token} (hgap : Skipped gap (s.toList ++ (text ++ rest)))
      (next : Tiles (p.after (gap ++ s.toList)) text ts rest) :
      Tiles p (gap ++ (s.toList ++ text)) (.plain kind (p.after gap) s :: ts) rest
  | template {p : Position} {gap body text rest : List Char} {s : String}
      {groups : List (List Token)} {ts : List Token}
      (hgap : Skipped gap (s.toList ++ (text ++ rest))) (hs : s.toList = '\x60' :: body)
      (within : TilesLiteral ((p.after gap).next '\x60') body groups (text ++ rest))
      (next : Tiles (p.after (gap ++ s.toList)) text ts rest) :
      Tiles p (gap ++ (s.toList ++ text)) (.template (p.after gap) s groups.flatten :: ts) rest

/-- `body` is the text of a template literal after its opening backquote: characters and escapes
up to the closing backquote, and interpolations, the code inside each of which is tiled by its own
group of tokens. A literal, and an interpolation, may end with the source. -/
inductive TilesLiteral : Position → List Char → List (List Token) → List Char → Prop
  | closed {p : Position} {rest : List Char} : TilesLiteral p ['\x60'] [] rest
  | unclosed {p : Position} : TilesLiteral p [] [] []
  | cut {p : Position} : TilesLiteral p ['\\'] [] []
  | escape {p : Position} {c : Char} {body rest : List Char} {groups : List (List Token)}
      (next : TilesLiteral (p.after ['\\', c]) body groups rest) :
      TilesLiteral p ('\\' :: c :: body) groups rest
  | text {p : Position} {c : Char} {body rest : List Char} {groups : List (List Token)}
      (hescape : c ≠ '\\') (hquote : c ≠ '\x60')
      (hopen : c = '$' → (body ++ rest).head? ≠ some '\x7b')
      (next : TilesLiteral (p.next c) body groups rest) : TilesLiteral p (c :: body) groups rest
  | interpolation {p : Position} {code body rest : List Char} {group : List Token}
      {groups : List (List Token)}
      (inside : Tiles (p.after ['$', '\x7b']) code group ('\x7d' :: body ++ rest))
      (next : TilesLiteral (p.after ('$' :: '\x7b' :: code ++ ['\x7d'])) body groups rest) :
      TilesLiteral p ('$' :: '\x7b' :: code ++ '\x7d' :: body) (group :: groups) rest
  | openInterpolation {p : Position} {code : List Char} {group : List Token}
      (inside : Tiles (p.after ['$', '\x7b']) code group []) :
      TilesLiteral p ('$' :: '\x7b' :: code) [group] []

end

theorem Tiles.of_gap {p : Position} {regexMayStart : Bool} {c : Char} {cs text rest : List Char}
    {n : Nat} {ts : List Token} (hhead : head regexMayStart c cs = .gap n)
    (hdrop : (c :: cs).drop n = text ++ rest)
    (h : Tiles (p.after ((c :: cs).take n)) text ts rest) :
    Tiles p ((c :: cs).take n ++ text) ts rest := by
  cases h with
  | done hgap => exact .done (skipped_of_gap hhead hdrop hgap)
  | plain hgap next =>
    rw [List.append_assoc] at hdrop
    have hskipped := skipped_of_gap hhead (by simpa using hdrop) hgap
    rw [← Position.after_append, ← List.append_assoc]
    exact .plain hskipped (by simpa [Position.after_append] using next)
  | template hgap hs within next =>
    rw [List.append_assoc] at hdrop
    have hskipped := skipped_of_gap hhead (by simpa using hdrop) hgap
    rw [← Position.after_append, ← List.append_assoc]
    exact .template hskipped hs (by simpa [Position.after_append] using within)
      (by simpa [Position.after_append] using next)

/-- A token may follow another without a gap. -/
theorem Tiles.plain_flush {p : Position} {own text rest : List Char} {ts : List Token}
    (kind : Token.Kind) (next : Tiles (p.after own) text ts rest) :
    Tiles p (own ++ text) (.plain kind p (String.ofList own) :: ts) rest := by
  have h := @Tiles.plain p [] text rest kind (String.ofList own) ts .nil
  rw [List.nil_append, List.nil_append, String.toList_ofList] at h
  exact h next

theorem Tiles.template_flush {p : Position} {body text rest : List Char}
    {groups : List (List Token)} {ts : List Token}
    (within : TilesLiteral (p.next '\x60') body groups (text ++ rest))
    (next : Tiles (p.after ('\x60' :: body)) text ts rest) :
    Tiles p ('\x60' :: body ++ text)
      (.template p (String.ofList ('\x60' :: body)) groups.flatten :: ts) rest := by
  have h := @Tiles.template p [] body text rest (String.ofList ('\x60' :: body)) groups ts .nil
  rw [List.nil_append, List.nil_append, String.toList_ofList] at h
  exact h rfl within next

namespace Scan

/-- Where code that is read from `c` ends: the tiled text is followed by the brace that closes the
interpolation, or by nothing. -/
def EndsBefore (nesting : Nesting) (p : Position) (stop : Cursor) (text rest : List Char) : Prop :=
  rest = [] ∧ stop.rest = [] ∨
    nesting ≠ .outside ∧ rest = '\x7d' :: stop.rest ∧ stop.position = p.after (text ++ ['\x7d'])

theorem EndsBefore.of_after {nesting inner : Nesting} {p : Position} {stop : Cursor}
    {before text rest : List Char} (hnest : nesting = .outside → inner = .outside)
    (h : EndsBefore inner (p.after before) stop text rest) :
    EndsBefore nesting p stop (before ++ text) rest := by
  rcases h with h | ⟨hinner, hrest, hposition⟩
  · exact .inl h
  · refine .inr ⟨mt hnest hinner, hrest, ?_⟩
    rw [hposition, List.append_assoc, ← Position.after_append]

theorem eq_of_after_eq_none {nesting : Nesting} {c : Char} (h : nesting.after c = none) :
    nesting ≠ .outside ∧ c = '\x7d' := by
  unfold Nesting.after at h
  split at h
  · cases h
  · cases h
  · exact ⟨Nesting.noConfusion, rfl⟩
  · cases h
  · cases h

theorem after_outside {nesting inner : Nesting} {c : Char} (h : nesting.after c = some inner)
    (houtside : nesting = .outside) : inner = .outside := by
  subst houtside
  exact (Option.some.inj h).symm

theorem Template.eq_nil {c stop : Cursor} {groups : List (List Token)} {isClosed : Bool}
    (h : Template c groups stop isClosed) (hc : c.rest = []) : groups = [] ∧ stop = c := by
  cases h with
  | unclosed => exact ⟨rfl, rfl⟩
  | escape hc' => rw [hc] at hc'; cases hc'
  | closed hc' => rw [hc] at hc'; cases hc'
  | interpolation hc' => rw [hc] at hc'; cases hc'
  | text hc' => rw [hc] at hc'; cases hc'

mutual

/-- The tokens of a reading tile the text that they are read from. -/
theorem Code.tiles {nesting : Nesting} {previous : Option Token} {c stop : Cursor}
    {ts : List Token} : Code nesting previous c ts stop →
      ∃ text rest, c.rest = text ++ rest ∧ Tiles c.position text ts rest ∧
        EndsBefore nesting c.position stop text rest
  | .done hc => ⟨[], [], hc, .done .nil, .inl ⟨rfl, hc⟩⟩
  | @Code.gap _ _ c _ ch cs n _ hc hhead next => by
    obtain ⟨text, rest, hrest, htiles, hends⟩ := next.tiles
    rw [Cursor.advance_position] at htiles hends
    rw [Cursor.advance_rest, hc] at hrest
    refine ⟨c.rest.take n ++ text, rest, ?_, ?_, hends.of_after id⟩
    · rw [List.append_assoc, ← hrest, hc, List.take_append_drop]
    · rw [hc] at htiles ⊢
      exact .of_gap hhead hrest htiles
  | @Code.closing _ _ c ch cs kind n hc hhead hnest => by
    obtain ⟨hinside, rfl⟩ := eq_of_after_eq_none hnest
    obtain ⟨rfl, rfl⟩ : .punctuation = kind ∧ 1 = n := by
      injection hhead with hkind hn
      exact ⟨hkind, hn⟩
    refine ⟨[], c.rest, rfl, .done .nil, .inr ⟨hinside, ?_, ?_⟩⟩
    · rw [Cursor.advance_rest, hc]
      rfl
    · rw [Cursor.advance_position, hc]
      rfl
  | @Code.token _ _ _ c _ ch cs kind n _ hc hhead hnest next => by
    obtain ⟨text, rest, hrest, htiles, hends⟩ := next.tiles
    have hreaches := Cursor.Reaches.advance c n
    rw [hreaches.position_eq] at htiles hends
    refine ⟨c.slice (c.advance n) ++ text, rest, ?_, .plain_flush kind htiles,
      hends.of_after (after_outside hnest)⟩
    rw [List.append_assoc, ← hrest, ← hreaches.rest_eq]
  | @Code.literal _ _ c last _ ch cs groups _ _ hc hhead body next => by
    obtain ⟨inner, hinner, hwithin⟩ := body.tiles
    obtain ⟨text, rest, hrest, htiles, hends⟩ := next.tiles
    have hreaches := Cursor.Reaches.of_advance body.reaches
    have hsplit : c.rest = '\x60' :: inner ++ last.rest := by
      rw [Cursor.advance_rest, hc, List.drop_succ_cons, List.drop_zero] at hinner
      rw [hc, Lexeme.eq_of_head_eq_backquote hhead, hinner]
      rfl
    have hslice := hreaches.slice_eq hsplit
    rw [hreaches.position_eq, hslice] at htiles hends
    rw [Cursor.advance_position, hsplit, hrest] at hwithin
    refine ⟨'\x60' :: inner ++ text, rest, ?_, ?_, hends.of_after id⟩
    · rw [hsplit, hrest, List.append_assoc]
    · rw [literalBetween, hslice]
      exact .template_flush hwithin htiles

/-- The groups of a template literal tile the code inside its interpolations. -/
theorem Template.tiles {c stop : Cursor} {groups : List (List Token)} {isClosed : Bool} :
    Template c groups stop isClosed →
      ∃ body, c.rest = body ++ stop.rest ∧ TilesLiteral c.position body groups stop.rest
  | .unclosed hc => ⟨[], rfl, by rw [hc]; exact .unclosed⟩
  | @Template.escape c stop cs groups _ hc next => by
    obtain ⟨body, hbody, htiles⟩ := next.tiles
    rw [Cursor.advance_rest, hc] at hbody
    rw [Cursor.advance_position, hc] at htiles
    cases cs with
    | nil =>
      obtain ⟨rfl, hstop⟩ := List.append_eq_nil_iff.mp hbody.symm
      obtain ⟨rfl, _⟩ := next.eq_nil (by rw [Cursor.advance_rest, hc]; rfl)
      exact ⟨['\\'], by rw [hc, hstop]; rfl, by rw [hstop]; exact .cut⟩
    | cons d cs =>
      rw [List.drop_succ_cons, List.drop_succ_cons, List.drop_zero] at hbody
      exact ⟨'\\' :: d :: body, by rw [hc, hbody]; rfl, .escape htiles⟩
  | .closed hc => by
    refine ⟨['\x60'], ?_, .closed⟩
    rw [Cursor.advance_rest, hc]
    rfl
  | @Template.interpolation c mid stop cs group groups _ hc code next => by
    obtain ⟨text, rest, hrest, htiles, hends⟩ := code.tiles
    obtain ⟨body, hbody, hnext⟩ := next.tiles
    rw [Cursor.advance_rest, hc, List.drop_succ_cons, List.drop_succ_cons,
      List.drop_zero] at hrest
    rw [Cursor.advance_position, hc] at htiles hends
    rcases hends with ⟨rfl, hmid⟩ | ⟨_, rfl, hposition⟩
    · obtain ⟨rfl, rfl⟩ := next.eq_nil hmid
      refine ⟨'$' :: '\x7b' :: text, by rw [hc, hrest, hmid]; rfl, ?_⟩
      rw [hmid]
      exact .openInterpolation htiles
    · refine ⟨'$' :: '\x7b' :: text ++ '\x7d' :: body, ?_, ?_⟩
      · rw [hc, hrest, hbody]
        simp
      · rw [hposition, ← Position.after_append] at hnext
        rw [hbody] at htiles
        exact .interpolation htiles hnext
  | @Template.text c stop ch cs groups _ hc hescape hquote hopen next => by
    obtain ⟨body, hbody, htiles⟩ := next.tiles
    rw [Cursor.advance_rest, hc, List.drop_succ_cons, List.drop_zero] at hbody
    rw [Cursor.advance_position, hc] at htiles
    exact ⟨ch :: body, by rw [hc, hbody]; rfl, .text hescape hquote (hbody ▸ hopen) htiles⟩

end

end Scan

/-- A source `line ++ rest` begins with the interpreter line `line`, up to its first line feed, or
`line` is empty as there is none. -/
def IsInterpreterLine (line rest : List Char) : Prop :=
  (['#', '!'] <+: line ++ rest ∧ '\n' ∉ line ∧ ∀ c ∈ rest.head?, c = '\n') ∨
    ¬ ['#', '!'] <+: line ++ rest ∧ line = []

theorem Scan.exists_interpreterLine (source : List Char) :
    ∃ line, source = line ++ (codeStart source).rest ∧
      (codeStart source).position = Position.start.after line ∧
      IsInterpreterLine line (codeStart source).rest := by
  by_cases hline : ['#', '!'] <+: source
  · obtain ⟨line, more, hsource, hlength, hmem, hmore⟩ := Lexeme.exists_line source
    have hstart : codeStart source = (Cursor.ofList source).advance line.length := by
      rw [codeStart_of_interpreter hline, hlength]
    have hrest : (codeStart source).rest = more := by
      rw [hstart, Cursor.advance_rest, Cursor.ofList, hsource, List.drop_left]
    have hposition : (codeStart source).position = Position.start.after line := by
      rw [hstart, Cursor.advance_position, Cursor.ofList, hsource, List.take_left]
    rw [hrest]
    exact ⟨line, hsource, hposition, .inl ⟨hsource ▸ hline, hmem, hmore⟩⟩
  · rw [codeStart_of_not_interpreter hline]
    exact ⟨[], rfl, rfl, .inr ⟨hline, rfl⟩⟩

/-- After an interpreter line, the tokens of a source and what may be skipped between them make up
the whole source, and so they do inside every interpolation. -/
theorem tokenize_tiles (source : String) :
    ∃ line text, source.toList = line ++ text ∧ IsInterpreterLine line text ∧
      Tiles (Position.start.after line) text (tokenize source) [] := by
  obtain ⟨line, hsource, hposition, hline⟩ := Scan.exists_interpreterLine source.toList
  obtain ⟨stop, reading⟩ := tokenize_reads source
  obtain ⟨text, rest, hrest, htiles, hends⟩ := reading.tiles
  have hnil : rest = [] := by
    rcases hends with ⟨hnil, _⟩ | ⟨hinside, _⟩
    · exact hnil
    · exact absurd rfl hinside
  rw [hnil, List.append_nil] at hrest
  rw [hposition, hnil, ← hrest] at htiles
  exact ⟨line, _, hsource, hline, htiles⟩

end SymbolAtlas
