import SymbolAtlas.Proofs.Token.LongestMatch

/-! # Regular expressions and divisions

A slash is a division after a value, before an equals sign or white space, and where no slash
closes what it opens; anywhere else it opens a regular expression. What closes one is the first
slash outside escapes and character classes with no line feed before it, except that the character
after a backslash is skipped whatever it is: an escaped line feed does not end the search, so that
a regular expression can go on over the end of its line there.
-/

namespace SymbolAtlas

open Identifier

/-! ## Bodies -/

/-- The text between the brackets of a character class, with the characters that a backslash
precedes in it. -/
inductive ClassText : List Char → List Char → Prop
  | nil : ClassText [] []
  | escape {escaped cs : List Char} (c : Char) (h : ClassText escaped cs) :
      ClassText (c :: escaped) ('\\' :: c :: cs)
  | other {escaped cs : List Char} {c : Char} (hescape : c ≠ '\\') (hclose : c ≠ ']')
      (hline : c ≠ '\n') (h : ClassText escaped cs) : ClassText escaped (c :: cs)

/-- The text between the slashes of a regular expression, with the characters that a backslash
precedes in it: no other character is a line feed, and none outside a class is a slash. -/
inductive RegexBody : List Char → List Char → Prop
  | nil : RegexBody [] []
  | escape {escaped cs : List Char} (c : Char) (h : RegexBody escaped cs) :
      RegexBody (c :: escaped) ('\\' :: c :: cs)
  | charClass {escaped inside escaped' cs : List Char} (hinside : ClassText escaped inside)
      (h : RegexBody escaped' cs) :
      RegexBody (escaped ++ escaped') ('[' :: (inside ++ ']' :: cs))
  | other {escaped cs : List Char} {c : Char} (hescape : c ≠ '\\') (hopen : c ≠ '[')
      (hclose : c ≠ '/') (hline : c ≠ '\n') (h : RegexBody escaped cs) :
      RegexBody escaped (c :: cs)

def ClosesRegex (cs : List Char) : Prop :=
  ∃ escaped body rest, cs = body ++ '/' :: rest ∧ RegexBody escaped body

/-- The text of a regular expression before the text `right`: its flags go on as far as the
letters do. -/
def IsRegex (text right escaped : List Char) : Prop :=
  ∃ body flags, text = '/' :: (body ++ '/' :: flags) ∧ RegexBody escaped body ∧
    flags.all isAsciiLetter = true ∧ right.head?.any isAsciiLetter = false

theorem ClassText.mem_iff {escaped inside : List Char} (h : ClassText escaped inside) :
    '\n' ∈ inside ↔ '\n' ∈ escaped := by
  induction h with
  | nil => rfl
  | escape c _ ih => simp [ih]
  | other _ _ hline _ ih => rw [List.mem_cons, ih, or_iff_right hline.symm]

/-- The line feeds of a body are those that a backslash precedes. -/
theorem RegexBody.mem_iff {escaped body : List Char} (h : RegexBody escaped body) :
    '\n' ∈ body ↔ '\n' ∈ escaped := by
  induction h with
  | nil => rfl
  | escape c _ ih => simp [ih]
  | charClass hinside _ ih => simp [hinside.mem_iff, ih]
  | other _ _ _ hline _ ih => rw [List.mem_cons, ih, or_iff_right hline.symm]

theorem IsRegex.mem_iff {text right escaped : List Char} (h : IsRegex text right escaped) :
    '\n' ∈ text ↔ '\n' ∈ escaped := by
  obtain ⟨body, flags, rfl, hbody, hflags, -⟩ := h
  have hline : '\n' ∉ flags := fun hmem => by
    have := List.all_eq_true.mp hflags _ hmem
    exact absurd this (by decide)
  simp [hbody.mem_iff, hline]

/-- A regular expression without a line feed is closed on its line. -/
theorem IsRegex.closes {text right escaped tail : List Char} (h : IsRegex text right escaped)
    (htail : text ++ right = '/' :: tail) (hline : '\n' ∉ text) :
    ClosesRegex (tail.takeWhile (· != '\n')) := by
  obtain ⟨body, flags, rfl, hbody, -, -⟩ := h
  rw [List.cons_append, List.append_assoc, List.cons_append] at htail
  obtain rfl := (List.cons.inj htail).2
  have hbodyLine : ∀ c ∈ body, (c != '\n') = true := fun c hc => by
    rw [bne_iff_ne]
    rintro rfl
    exact hline (List.mem_cons_of_mem _ (List.mem_append_left _ hc))
  rw [List.takeWhile_append_of_pos hbodyLine, List.takeWhile_cons_of_pos (by decide)]
  exact ⟨escaped, body, _, rfl, hbody⟩

namespace Lexeme

/-! ## Where a body closes -/

/-- A body from inside or outside a character class on. -/
def BodyFrom : Bool → List Char → List Char → Prop
  | false, escaped, cs => RegexBody escaped cs
  | true, escaped, cs =>
    ∃ escapedInside inside escapedAfter after, escaped = escapedInside ++ escapedAfter ∧
      cs = inside ++ ']' :: after ∧ ClassText escapedInside inside ∧ RegexBody escapedAfter after

theorem BodyFrom.escape {inClass : Bool} {escaped cs : List Char} (c : Char)
    (h : BodyFrom inClass escaped cs) : BodyFrom inClass (c :: escaped) ('\\' :: c :: cs) := by
  cases inClass with
  | false => exact RegexBody.escape c h
  | true =>
    obtain ⟨_, _, _, _, rfl, rfl, hinside, hafter⟩ := h
    exact ⟨_, _, _, _, rfl, rfl, hinside.escape c, hafter⟩

/-- A character other than a backslash goes on with the body, in a class or outside. -/
theorem BodyFrom.cons {inClass : Bool} {escaped cs : List Char} {c : Char} (hescape : c ≠ '\\')
    (hline : c ≠ '\n') (hclose : ¬ (c = '/' && !inClass) = true)
    (h : BodyFrom (if c = '[' then true else if c = ']' then false else inClass) escaped cs) :
    BodyFrom inClass escaped (c :: cs) := by
  by_cases hopen : c = '['
  · subst hopen
    obtain ⟨_, inside, _, after, rfl, rfl, hinside, hafter⟩ := h
    cases inClass with
    | false => exact RegexBody.charClass hinside hafter
    | true =>
      exact ⟨_, _, _, _, rfl, rfl, hinside.other (by decide) (by decide) (by decide), hafter⟩
  rw [if_neg hopen] at h
  by_cases hbracket : c = ']'
  · subst hbracket
    cases inClass with
    | false => exact RegexBody.other (by decide) (by decide) (by decide) (by decide) h
    | true => exact ⟨[], [], _, cs, rfl, rfl, .nil, h⟩
  rw [if_neg hbracket] at h
  cases inClass with
  | false => exact RegexBody.other hescape hopen (by simpa using hclose) hline h
  | true =>
    obtain ⟨_, _, _, _, rfl, rfl, hinside, hafter⟩ := h
    exact ⟨_, _, _, _, rfl, rfl, hinside.other hescape hbracket hline, hafter⟩

theorem exists_bodyFrom {inClass : Bool} {cs : List Char} {n : Nat}
    (h : throughSlash inClass cs = some n) :
    ∃ escaped body rest, cs = body ++ '/' :: rest ∧ BodyFrom inClass escaped body ∧
      n = body.length + 1 := by
  fun_induction throughSlash inClass cs generalizing n with
  | case1 => cases h
  | case2 => cases h
  | case3 inClass c cs ih =>
    obtain ⟨m, hm, rfl⟩ := Option.map_eq_some_iff.mp h
    obtain ⟨escaped, body, rest, rfl, hbody, rfl⟩ := ih hm
    exact ⟨c :: escaped, '\\' :: c :: body, rest, rfl, hbody.escape c,
      by simp only [List.length_cons]; omega⟩
  | case4 => cases h
  | case5 inClass c cs _ _ _ hclose =>
    cases h
    simp only [Bool.and_eq_true, decide_eq_true_eq, Bool.not_eq_true'] at hclose
    obtain ⟨rfl, rfl⟩ := hclose
    exact ⟨[], [], cs, rfl, .nil, rfl⟩
  | case6 inClass c =>
    rename_i hlone hescape hline hclose _ ih
    obtain ⟨m, hm, rfl⟩ := Option.map_eq_some_iff.mp h
    obtain ⟨escaped, body, rest, rfl, hbody, rfl⟩ := ih hm
    exact ⟨escaped, c :: body, rest, rfl, hbody.cons (ne_backslash hlone hescape) hline hclose,
      by simp only [List.length_cons]; omega⟩

theorem throughSlash_classText {escaped inside : List Char} (h : ClassText escaped inside)
    (rest : List Char) :
    throughSlash true (inside ++ ']' :: rest) =
      (throughSlash false rest).map (inside.length + 1 + ·) := by
  induction h with
  | nil =>
    rw [List.nil_append, throughSlash_cons (by decide)]
    rfl
  | escape c _ ih =>
    rw [List.cons_append, List.cons_append, throughSlash, ih, Option.map_map]
    congr 1
    funext n
    simp only [Function.comp, List.length_cons]
    omega
  | @other _ _ c hescape hclose hline _ ih =>
    have hnext : (if c = '[' then true else if c = ']' then false else true) = true := by
      rw [if_neg hclose, ite_self]
    rw [List.cons_append, throughSlash_cons hescape, if_neg hline, if_neg (by simp), hnext, ih,
      Option.map_map]
    congr 1
    funext n
    simp only [Function.comp, List.length_cons]
    omega

/-- The slash after a body closes it. -/
theorem throughSlash_of_body {escaped body : List Char} (h : RegexBody escaped body)
    (rest : List Char) : throughSlash false (body ++ '/' :: rest) = some (body.length + 1) := by
  induction h with
  | nil =>
    rw [List.nil_append, throughSlash_cons (by decide)]
    rfl
  | escape c _ ih =>
    rw [List.cons_append, List.cons_append, throughSlash, ih, Option.map_some]
    congr 1
    simp only [List.length_cons]
    omega
  | charClass hinside _ ih =>
    rw [List.cons_append, List.append_assoc, List.cons_append, throughSlash_cons (by decide)]
    simp only [Char.reduceEq, decide_false, Bool.false_and, Bool.false_eq_true, if_false, if_true]
    rw [throughSlash_classText hinside, ih, Option.map_some, Option.map_some]
    congr 1
    simp only [List.length_cons, List.length_append]
    omega
  | @other _ _ c hescape hopen hclose hline _ ih =>
    have hnext : (if c = '[' then true else if c = ']' then false else false) = false := by
      rw [if_neg hopen, ite_self]
    rw [List.cons_append, throughSlash_cons hescape, if_neg hline, if_neg (by simp [hclose]),
      hnext, ih, Option.map_some]
    congr 1
    simp only [List.length_cons]
    omega

theorem throughSlash_eq_some_iff {cs : List Char} {n : Nat} :
    throughSlash false cs = some n ↔
      ∃ escaped body rest, cs = body ++ '/' :: rest ∧ RegexBody escaped body ∧
        n = body.length + 1 := by
  constructor
  · exact exists_bodyFrom
  · rintro ⟨escaped, body, rest, rfl, hbody, rfl⟩
    exact throughSlash_of_body hbody rest

theorem regexTail_eq_none_iff {cs : List Char} : regexTail? cs = none ↔ ¬ ClosesRegex cs := by
  rw [regexTail?, Option.map_eq_none_iff, Option.eq_none_iff_forall_not_mem]
  constructor
  · rintro h ⟨escaped, body, rest, rfl, hbody⟩
    exact h _ (throughSlash_of_body hbody rest)
  · intro h n hn
    obtain ⟨escaped, body, rest, rfl, hbody, -⟩ := throughSlash_eq_some_iff.mp hn
    exact h ⟨escaped, body, rest, rfl, hbody⟩

/-- A regular expression is a body between slashes and the letters after it. -/
theorem exists_isRegex {cs : List Char} {n : Nat} (h : regexTail? cs = some n) :
    ∃ escaped, IsRegex ('/' :: cs.take n) (cs.drop n) escaped := by
  obtain ⟨m, hm, rfl⟩ := Option.map_eq_some_iff.mp h
  obtain ⟨escaped, body, rest, rfl, hbody, rfl⟩ := throughSlash_eq_some_iff.mp hm
  have hcut : body ++ '/' :: rest = (body ++ ['/']) ++ rest := by
    rw [List.append_assoc, List.singleton_append]
  have hlength : body.length + 1 = (body ++ ['/']).length := by
    rw [List.length_append, List.length_singleton]
  refine ⟨escaped, body, rest.takeWhile isAsciiLetter, ?_, hbody, ?_, ?_⟩
  · rw [hcut, hlength, List.drop_left, List.take_length_add_append,
      ← List.prefix_iff_eq_take.mp (List.takeWhile_prefix isAsciiLetter), List.append_assoc,
      List.singleton_append]
  · exact List.all_takeWhile
  · rw [hcut, hlength, List.drop_left, List.drop_length_add_append]
    exact head?_drop_takeWhile _ _

/-! ## What a slash begins -/

theorem Begins.regex_cases {regexMayStart : Bool} {c : Char} {cs : List Char} {n : Nat}
    (h : Begins regexMayStart c cs .regex n) :
    c = '/' ∧ afterSlash regexMayStart cs = .token .regex n := by
  generalize hkind : Token.Kind.regex = kind at h
  cases h with
  | slash hc h => exact ⟨hc, hkind ▸ h⟩
  | name => exact absurd hkind (ne_nameKind (by decide) _)
  | quoted | number | mark | operator => cases hkind

/-- A slash begins a regular expression only where one may start. -/
theorem afterSlash_regex {regexMayStart : Bool} {cs : List Char} {n : Nat}
    (h : afterSlash regexMayStart cs = .token .regex n) :
    regexMayStart = true ∧ ∃ m, regexTail? cs = some m ∧ n = m + 1 := by
  unfold afterSlash at h
  split at h
  · cases h
  · cases h
  split at h
  · next m hm =>
    cases h
    rw [Option.ite_none_right_eq_some, Bool.and_eq_true] at hm
    exact ⟨hm.1.1, m, hm.2, Nat.add_comm _ _⟩
  · cases h

/-- A slash is an operator only where no regular expression can begin, or none closes. -/
theorem afterSlash_division {regexMayStart : Bool} {cs : List Char} {n : Nat}
    (h : afterSlash regexMayStart cs = .token .operator n) (hmay : regexMayStart = true) :
    admitsRegex cs = false ∨ regexTail? cs = none := by
  unfold afterSlash at h
  split at h
  · cases h
  · cases h
  split at h
  · cases h
  · next hnone =>
    by_cases hadmits : admitsRegex cs = true
    · rw [hmay, hadmits] at hnone
      exact .inr hnone
    · exact .inl (Bool.eq_false_iff.mpr hadmits)

theorem mem_of_admitsRegex {cs : List Char} (h : admitsRegex cs = false) :
    ∀ c ∈ cs.head?, c ∈ ['=', ' ', '\n', '\t', '\r'] := by
  cases cs with
  | nil => simp
  | cons d cs =>
    rw [admitsRegex, Bool.not_eq_false', List.contains_iff_mem] at h
    intro c hc
    rwa [← Option.mem_some.mp hc]

end Lexeme

namespace Token

/-- A value that a slash after it divides. -/
def EndsValue (t : Token) : Prop :=
  t.hasKind .identifier = true ∨ t.hasKind .numeric = true ∨ t.text = ")" ∨ t.text = "]"

theorem mayPrecedeRegex_iff {t : Token} : t.mayPrecedeRegex = true ↔ ¬ t.EndsValue := by
  simp [mayPrecedeRegex, EndsValue, and_assoc]

theorem all_mayPrecedeRegex_iff {previous : Option Token} :
    previous.all mayPrecedeRegex = true ↔ ∀ u ∈ previous, ¬ u.EndsValue := by
  simp only [Option.all_eq_true, ← mayPrecedeRegex_iff, Option.mem_def]

end Token

namespace Scan

open Token

variable {previous : Option Token} {c : Cursor} {t : Token} {right tail : List Char}

/-- A token that begins with a slash is what the slash begins. -/
theorem ReadAt.exists_afterSlash (h : ReadAt previous c t)
    (hrest : c.rest = t.text.toList ++ right) (hslash : t.text.toList ++ right = '/' :: tail) :
    ∃ kind n, t.hasKind kind = true ∧
      Lexeme.afterSlash (previous.all mayPrecedeRegex) tail = .token kind n := by
  obtain ⟨kind, hkind⟩ : ∃ kind, t.hasKind kind = true := by
    cases h with
    | @lexeme _ _ kind => exact ⟨kind, by rw [tokenBetween, hasKind_plain, decide_eq_true rfl]⟩
    | literal hquote =>
      rw [hrest, hslash] at hquote
      cases hquote
  obtain ⟨ch, cs, n, htext, hhead, -, -⟩ := h.exists_head hrest hkind
  cases hslash.symm.trans htext
  exact ⟨kind, n, hkind, hhead⟩

theorem ReadAt.isRegex (h : ReadAt previous c t) (hrest : c.rest = t.text.toList ++ right)
    (hkind : t.hasKind .regex = true) :
    (∀ u ∈ previous, ¬ u.EndsValue) ∧ ∃ escaped, IsRegex t.text.toList right escaped := by
  obtain ⟨ch, cs, n, -, hhead, htext, hright⟩ := h.exists_head hrest hkind
  obtain ⟨rfl, hslash⟩ := (Lexeme.begins_of_head hhead).regex_cases
  obtain ⟨hmay, m, hm, rfl⟩ := Lexeme.afterSlash_regex hslash
  rw [htext, hright]
  exact ⟨all_mayPrecedeRegex_iff.mp hmay, Lexeme.exists_isRegex hm⟩

theorem ReadAt.division (h : ReadAt previous c t) (hrest : c.rest = t.text.toList ++ right)
    (hkind : t.hasKind .operator = true) (hslash : t.text.toList ++ right = '/' :: tail)
    (hprevious : ∀ u ∈ previous, ¬ u.EndsValue) :
    (∀ d ∈ tail.head?, d ∈ ['=', ' ', '\n', '\t', '\r']) ∨ ¬ ClosesRegex tail := by
  obtain ⟨kind, n, hkind', hafter⟩ := h.exists_afterSlash hrest hslash
  obtain rfl : kind = .operator :=
    Option.some.inj ((beq_iff_eq.mp hkind').symm.trans (beq_iff_eq.mp hkind))
  exact (Lexeme.afterSlash_division hafter (all_mayPrecedeRegex_iff.mpr hprevious)).imp
    Lexeme.mem_of_admitsRegex Lexeme.regexTail_eq_none_iff.mp

end Scan

namespace Token

/-- A regular expression stands after no value and is one up to its first closing slash and its
last flag; where no value precedes it, a slash is an operator only before an equals sign, white
space or the end of the text, or where nothing closes what it would open. -/
theorem regex_or_division {source : String} {before after : List Token} {t : Token}
    (h : Scanned source (before ++ t :: after)) :
    ∃ left right, StandsBetween source t left right ∧
      (t.hasKind .regex = true →
        (∀ u ∈ before.getLast?, ¬ u.EndsValue) ∧ ∃ escaped, IsRegex t.text.toList right escaped) ∧
      (t.isOperator "/" = true ∨ t.isOperator "/=" = true →
        (∀ u ∈ before.getLast?, ¬ u.EndsValue) →
          ∃ tail, t.text.toList ++ right = '/' :: tail ∧
            ((∀ d ∈ tail.head?, d ∈ ['=', ' ', '\n', '\t', '\r']) ∨ ¬ ClosesRegex tail)) := by
  obtain ⟨left, right, c, hstands, hrest, hread⟩ := h.exists_readAt
  refine ⟨left, right, hstands, hread.isRegex hrest, fun hslash hprevious => ?_⟩
  rcases hslash with hslash | hslash <;>
    obtain ⟨hkind, htext⟩ := (Bool.and_eq_true _ _).mp hslash <;>
    rw [beq_iff_eq] at htext
  · have htail : t.text.toList ++ right = '/' :: right := by rw [htext]; rfl
    exact ⟨_, htail, hread.division hrest hkind htail hprevious⟩
  · have htail : t.text.toList ++ right = '/' :: '=' :: right := by rw [htext]; rfl
    exact ⟨_, htail, hread.division hrest hkind htail hprevious⟩

/-- A regular expression after an opening bracket, with a slash in a class and one escaped. -/
theorem regex_or_division_class :
    Scanned "f(/[/]\\//g/2)"
        ([.plain .identifier .start "f", .plain .punctuation ⟨1, 2⟩ "("] ++
          .plain .regex ⟨1, 3⟩ "/[/]\\//g" ::
          [.plain .operator ⟨1, 11⟩ "/", .plain .numeric ⟨1, 12⟩ "2",
            .plain .punctuation ⟨1, 13⟩ ")"]) ∧
      ∃ left right,
        StandsBetween "f(/[/]\\//g/2)" (.plain .regex ⟨1, 3⟩ "/[/]\\//g") left right ∧
          ∃ escaped, IsRegex "/[/]\\//g".toList right escaped := by
  have hscanned : Scanned "f(/[/]\\//g/2)"
      ([.plain .identifier .start "f", .plain .punctuation ⟨1, 2⟩ "("] ++
        .plain .regex ⟨1, 3⟩ "/[/]\\//g" ::
        [.plain .operator ⟨1, 11⟩ "/", .plain .numeric ⟨1, 12⟩ "2",
          .plain .punctuation ⟨1, 13⟩ ")"]) :=
    Scanned.source
  obtain ⟨left, right, hstands, hregex, -⟩ := regex_or_division hscanned
  exact ⟨hscanned, left, right, hstands, (hregex rfl).2⟩

/-- The line feeds inside a regular expression are those after a backslash, and a slash that
nothing closes before the next line feed is an operator unless it opens a regular expression with
such a one. -/
theorem regex_lineFeeds (source : String) {l : List Token} (h : Layer (tokenize source) l)
    {t : Token} (ht : t ∈ l) :
    ∃ left right, StandsBetween source t left right ∧
      (t.hasKind .regex = true →
        ∃ escaped, IsRegex t.text.toList right escaped ∧
          ('\n' ∈ t.text.toList ↔ '\n' ∈ escaped)) ∧
      ∀ tail, t.text.toList ++ right = '/' :: tail →
        ¬ ClosesRegex (tail.takeWhile (· != '\n')) →
          t.hasKind .operator = true ∨ t.hasKind .regex = true ∧ '\n' ∈ t.text.toList := by
  obtain ⟨left, right, previous, c, hstands, hrest, hread⟩ := h.exists_readAt ht
  refine ⟨left, right, hstands, fun hkind => ?_, fun tail htail hopen => ?_⟩
  · obtain ⟨-, escaped, hregex⟩ := hread.isRegex hrest hkind
    exact ⟨escaped, hregex, hregex.mem_iff⟩
  · obtain ⟨kind, n, hkind, hafter⟩ := hread.exists_afterSlash hrest htail
    rcases Lexeme.afterSlash_cases hafter with rfl | rfl
    · obtain ⟨-, escaped, hregex⟩ := hread.isRegex hrest hkind
      exact .inr ⟨hkind, Classical.byContradiction fun hline => hopen (hregex.closes htail hline)⟩
    · exact .inl hkind

/-- A regular expression that goes on over the end of its line. -/
theorem regex_lineFeeds_escaped :
    Layer (tokenize "/a\\\nb/") [.plain .regex .start "/a\\\nb/"] ∧
      ∃ left right, StandsBetween "/a\\\nb/" (.plain .regex .start "/a\\\nb/") left right ∧
        ∃ escaped, IsRegex "/a\\\nb/".toList right escaped ∧ '\n' ∈ escaped := by
  have hlayer : Layer (tokenize "/a\\\nb/") [.plain .regex .start "/a\\\nb/"] := .outer
  obtain ⟨left, right, hstands, hregex, -⟩ := regex_lineFeeds _ hlayer List.mem_cons_self
  obtain ⟨escaped, htext, hline⟩ := hregex rfl
  exact ⟨hlayer, left, right, hstands, escaped, htext, hline.mp (by decide)⟩

/-- A regular expression can leave its line. -/
theorem not_forall_regex_line :
    ¬ ∀ (source : String) (l : List Token), Layer (tokenize source) l →
      ∀ t ∈ l, t.hasKind .regex = true → '\n' ∉ t.text.toList := by
  intro h
  exact h "/a\\\nb/" [.plain .regex .start "/a\\\nb/"] .outer _ List.mem_cons_self rfl (by decide)

end Token

end SymbolAtlas
