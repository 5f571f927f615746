import SymbolAtlas.Proofs.Token.Surroundings
import SymbolAtlas.Proofs.Token.Tiling

/-! # Braces inside a template literal

The code inside an interpolation goes on to the brace that balances its opening one. So its tokens
never close a brace that they have not opened, and once the interpolation is closed they have
closed all of them; braces in strings, comments, regular expressions and literals further inside
do not count. A literal that ends before its source has closed all its interpolations, and the
backquote that ends it stands outside of them and is not escaped.
-/

namespace SymbolAtlas

namespace Token

/-! ## Counting braces -/

def openedBraces (ts : List Token) : Nat := ts.countP (·.isMark "\x7b")

def closedBraces (ts : List Token) : Nat := ts.countP (·.isMark "\x7d")

/-- Where `depth` braces are open, no token closes a brace that is not. -/
def StaysNested (depth : Nat) (ts : List Token) : Prop :=
  ∀ before, before <+: ts → closedBraces before ≤ depth + openedBraces before

structure BracesBalance (ts : List Token) : Prop where
  nested : StaysNested 0 ts
  closed : closedBraces ts = openedBraces ts

section Braces

variable {depth inner : Nat} {t : Token} {ts us : List Token} {groups : List (List Token)}

theorem openedBraces_append : openedBraces (ts ++ us) = openedBraces ts + openedBraces us :=
  List.countP_append

theorem closedBraces_append : closedBraces (ts ++ us) = closedBraces ts + closedBraces us :=
  List.countP_append

theorem openedBraces_cons :
    openedBraces (t :: ts) = openedBraces ts + if t.isMark "\x7b" then 1 else 0 :=
  List.countP_cons

theorem closedBraces_cons :
    closedBraces (t :: ts) = closedBraces ts + if t.isMark "\x7d" then 1 else 0 :=
  List.countP_cons

theorem staysNested_nil (depth : Nat) : StaysNested depth [] := by
  intro before hbefore
  rw [List.prefix_nil.mp hbefore]
  exact Nat.zero_le _

/-- A token leaves as many braces open as it does not close. -/
theorem StaysNested.cons (h : StaysNested inner ts)
    (ht : (inner + if t.isMark "\x7d" then 1 else 0) = depth + if t.isMark "\x7b" then 1 else 0) :
    StaysNested depth (t :: ts) := by
  intro before hbefore
  rcases List.prefix_cons_iff.mp hbefore with rfl | ⟨rest, rfl, hrest⟩
  · exact Nat.zero_le _
  · have := h rest hrest
    rw [closedBraces_cons, openedBraces_cons]
    omega

theorem StaysNested.append (h : StaysNested 0 ts) (h' : StaysNested 0 us) :
    StaysNested 0 (ts ++ us) := by
  intro before hbefore
  rcases List.prefix_or_prefix_of_prefix hbefore (List.prefix_append ts us) with hts | ⟨rest, rfl⟩
  · exact h before hts
  · have hall := h ts (List.prefix_refl ts)
    have hrest := h' rest ((List.prefix_append_right_inj ts).mp hbefore)
    rw [closedBraces_append, openedBraces_append]
    omega

theorem staysNested_flatten (h : ∀ group ∈ groups, StaysNested 0 group) :
    StaysNested 0 groups.flatten := by
  induction groups with
  | nil => exact staysNested_nil 0
  | cons group groups ih =>
    rw [List.flatten_cons]
    exact (h group List.mem_cons_self).append (ih fun g hg => h g (List.mem_cons_of_mem group hg))

theorem closedBraces_flatten (h : ∀ group ∈ groups, BracesBalance group) :
    closedBraces groups.flatten = openedBraces groups.flatten := by
  induction groups with
  | nil => rfl
  | cons group groups ih =>
    rw [List.flatten_cons, closedBraces_append, openedBraces_append,
      (h group List.mem_cons_self).closed, ih fun g hg => h g (List.mem_cons_of_mem group hg)]

end Braces

end Token

/-! ## Braces in a reading -/

namespace Nesting

theorem after_inside_other {n : Nat} {ch : Char} (hopen : ch ≠ '\x7b') (hclose : ch ≠ '\x7d') :
    (inside n).after ch = some (inside n) := by
  unfold after
  split
  · contradiction
  · exact absurd rfl hopen
  · exact absurd rfl hclose
  · exact absurd rfl hclose
  · rename_i heq _ _ _
    cases heq
    rfl

/-- Inside an interpolation, a brace opens or closes one level, and nothing else does. -/
theorem after_inside {n : Nat} {ch : Char} {nesting : Nesting}
    (h : (inside n).after ch = some nesting) :
    ∃ m, nesting = inside m ∧
      (m + if ch = '\x7d' then 1 else 0) = n + if ch = '\x7b' then 1 else 0 := by
  by_cases hopen : ch = '\x7b'
  · subst hopen
    cases h
    exact ⟨_, rfl, rfl⟩
  by_cases hclose : ch = '\x7d'
  · subst hclose
    cases n with
    | zero => cases h
    | succ n =>
      cases h
      exact ⟨_, rfl, rfl⟩
  · rw [after_inside_other hopen hclose] at h
    cases h
    exact ⟨n, rfl, by rw [if_neg hopen, if_neg hclose]⟩

theorem after_inside_none {n : Nat} {ch : Char} (h : (inside n).after ch = none) : n = 0 := by
  unfold after at h
  split at h
  · cases h
  · cases h
  · next heq =>
    cases heq
    rfl
  · cases h
  · cases h

end Nesting

namespace Scan

open Token

/-- A token that is read is a brace exactly if it begins with one. -/
theorem isMark_brace {previous : Option Token} {c : Cursor} {ch brace : Char} {cs : List Char}
    {kind : Kind} {n : Nat} (hbrace : brace = '\x7b' ∨ brace = '\x7d') (hc : c.rest = ch :: cs)
    (hhead : headAfter previous ch cs = .token kind n) :
    (tokenBetween kind c (c.advance n)).isMark (String.singleton brace) = decide (ch = brace) := by
  obtain ⟨m, rfl⟩ := Nat.exists_eq_add_of_lt (length_pos_of_headAfter hhead)
  have htext : c.slice (c.advance (0 + m + 1)) = ch :: cs.take m := by
    rw [Cursor.slice_advance, hc, Nat.zero_add, List.take_succ_cons]
  rw [tokenBetween, htext, isMark_plain]
  by_cases heq : ch = brace
  · subst heq
    have hmark : headAfter previous ch cs = .token .punctuation 1 := by
      rcases hbrace with rfl | rfl <;> rfl
    rw [hmark] at hhead
    injection hhead with hkind hm
    obtain rfl : m = 0 := by omega
    rw [← hkind]
    simp
  · have hne : String.ofList (ch :: cs.take m) ≠ String.singleton brace := by
      intro h
      have hlist := congrArg String.toList h
      rw [String.toList_ofList, String.toList_singleton] at hlist
      exact heq (List.cons.inj hlist).1
    rw [beq_eq_false_iff_ne.mpr hne, Bool.and_false, decide_eq_false heq]

/-- What an interpolation's tokens do with braces while `depth` of them are open: they close none
but open ones, and all of them unless the source ends first. -/
structure NestsBraces (depth : Nat) (ts : List Token) (stop : Cursor) : Prop where
  nested : StaysNested depth ts
  closed : stop.rest ≠ [] → closedBraces ts = depth + openedBraces ts

theorem NestsBraces.cons {depth inner : Nat} {t : Token} {ts : List Token} {stop : Cursor}
    (h : NestsBraces inner ts stop)
    (ht : (inner + if t.isMark "\x7d" then 1 else 0) = depth + if t.isMark "\x7b" then 1 else 0) :
    NestsBraces depth (t :: ts) stop where
  nested := h.nested.cons ht
  closed hrest := by
    have := h.closed hrest
    rw [closedBraces_cons, openedBraces_cons]
    omega

-- A literal inside the code is one token here, and no brace, whatever braces its own code has.
theorem Code.nestsBraces {nesting : Nesting} {previous : Option Token} {c stop : Cursor}
    {ts : List Token} {n : Nat} : Code nesting previous c ts stop → nesting = .inside n →
      NestsBraces n ts stop
  | .done hc, _ => ⟨staysNested_nil n, fun hrest => absurd hc hrest⟩
  | .gap _ _ next, h => next.nestsBraces h
  | .closing _ _ hnest, h => by
    obtain rfl := Nesting.after_inside_none (h ▸ hnest)
    exact ⟨staysNested_nil 0, fun _ => rfl⟩
  | .token hc hhead hnest next, h => by
    obtain ⟨m, hinner, hm⟩ := Nesting.after_inside (h ▸ hnest)
    refine (next.nestsBraces hinner).cons ?_
    have hopen := isMark_brace (.inl rfl) hc hhead
    have hclose := isMark_brace (.inr rfl) hc hhead
    rw [String.singleton_eq_ofList] at hopen hclose
    simp only [hopen, hclose, decide_eq_true_eq]
    exact hm
  | .literal _ _ _ next, h => (next.nestsBraces h).cons rfl

/-- An interpolation that is closed before the source ends has closed all its braces. -/
theorem Template.bracesBalance_of_mem {c stop : Cursor} {groups : List (List Token)}
    {isClosed : Bool} {group : List Token} :
    Template c groups stop isClosed → stop.rest ≠ [] → group ∈ groups → BracesBalance group
  | .unclosed _, _, hg => absurd hg List.not_mem_nil
  | .escape _ next, hstop, hg => next.bracesBalance_of_mem hstop hg
  | .closed _, _, hg => absurd hg List.not_mem_nil
  | @Template.interpolation _ mid _ _ _ _ _ _ code next, hstop, hg => by
    rcases List.mem_cons.mp hg with rfl | hg
    · obtain ⟨nested, closed⟩ := code.nestsBraces rfl
      have hmid : mid.rest ≠ [] := by
        rw [next.reaches.rest_eq]
        exact List.append_ne_nil_of_right_ne_nil _ hstop
      exact ⟨nested, (closed hmid).trans (Nat.zero_add _)⟩
    · exact next.bracesBalance_of_mem hstop hg
  | .text _ _ _ _ next, hstop, hg => next.bracesBalance_of_mem hstop hg

end Scan

/-! ## The backquote that ends a literal -/

/-- `body` is the text between the backquotes of a template literal that is closed, from `p` on
and before `rest`: characters that neither end the literal nor open an interpolation, escapes, and
interpolations, each with the tokens of its code and up to the brace that balances its first. -/
inductive LiteralBody : Position → List Char → List (List Token) → List Char → Prop
  | nil {p : Position} {rest : List Char} : LiteralBody p [] [] rest
  | escape {p : Position} {c : Char} {body rest : List Char} {groups : List (List Token)}
      (next : LiteralBody (p.after ['\\', c]) body groups rest) :
      LiteralBody p ('\\' :: c :: body) groups rest
  | text {p : Position} {c : Char} {body rest : List Char} {groups : List (List Token)}
      (hescape : c ≠ '\\') (hquote : c ≠ '\x60')
      (hopen : c = '$' → (body ++ rest).head? ≠ some '\x7b')
      (next : LiteralBody (p.next c) body groups rest) : LiteralBody p (c :: body) groups rest
  | interpolation {p : Position} {code body rest : List Char} {group : List Token}
      {groups : List (List Token)}
      (inside : Tiles (p.after ['$', '\x7b']) code group ('\x7d' :: body ++ rest))
      (balance : Token.BracesBalance group)
      (next : LiteralBody (p.after ('$' :: '\x7b' :: code ++ ['\x7d'])) body groups rest) :
      LiteralBody p ('$' :: '\x7b' :: code ++ '\x7d' :: body) (group :: groups) rest

/-- The number of backslashes that end a text. A character after the text is escaped if the number
is odd. -/
def finalBackslashes (text : List Char) : Nat := (text.reverse.takeWhile (· == '\\')).length

theorem even_finalBackslashes_append {xs ys : List Char} (hxs : finalBackslashes xs % 2 = 0)
    (hys : finalBackslashes ys % 2 = 0) : finalBackslashes (xs ++ ys) % 2 = 0 := by
  rw [finalBackslashes] at *
  rw [List.reverse_append, List.takeWhile_append]
  split
  · next hall =>
    rw [hall] at hys
    rw [List.length_append]
    omega
  · exact hys

/-- What follows the body of a literal is not escaped. -/
theorem LiteralBody.even_finalBackslashes {p : Position} {body rest : List Char}
    {groups : List (List Token)} (h : LiteralBody p body groups rest) :
    finalBackslashes body % 2 = 0 := by
  induction h with
  | nil => rfl
  | @escape p c body _ _ _ ih =>
    have hpair : finalBackslashes ['\\', c] % 2 = 0 := by
      by_cases hc : c = '\\' <;> simp [finalBackslashes, hc]
    exact even_finalBackslashes_append hpair ih
  | @text _ c body _ _ hescape _ _ _ ih =>
    have hchar : finalBackslashes [c] % 2 = 0 := by simp [finalBackslashes, hescape]
    exact even_finalBackslashes_append hchar ih
  | @interpolation _ code body _ _ _ _ _ _ ih =>
    have hcode : finalBackslashes ('$' :: '\x7b' :: code ++ ['\x7d']) % 2 = 0 := by
      simp [finalBackslashes]
    have hbody := even_finalBackslashes_append hcode ih
    rwa [List.append_assoc, List.singleton_append] at hbody

/-- A literal that ends before its source, with balanced interpolations, is a body and the
backquote that closes it. -/
theorem TilesLiteral.exists_body {p : Position} {text rest : List Char}
    {groups : List (List Token)} : TilesLiteral p text groups rest → rest ≠ [] →
      (∀ group ∈ groups, Token.BracesBalance group) →
        ∃ body, text = body ++ ['\x60'] ∧ LiteralBody p body groups ('\x60' :: rest)
  | .closed, _, _ => ⟨[], rfl, .nil⟩
  | .unclosed, hrest, _ => absurd rfl hrest
  | .cut, hrest, _ => absurd rfl hrest
  | .escape next, hrest, hgroups => by
    obtain ⟨body, rfl, hbody⟩ := next.exists_body hrest hgroups
    exact ⟨_, rfl, .escape hbody⟩
  | .text hescape hquote hopen next, hrest, hgroups => by
    obtain ⟨body, rfl, hbody⟩ := next.exists_body hrest hgroups
    rw [List.append_assoc, List.singleton_append] at hopen
    exact ⟨_, rfl, .text hescape hquote hopen hbody⟩
  | .interpolation inside next, hrest, hgroups => by
    obtain ⟨body, rfl, hbody⟩ :=
      next.exists_body hrest fun g hg => hgroups g (List.mem_cons_of_mem _ hg)
    rw [← List.cons_append, List.append_assoc, List.singleton_append] at inside
    refine ⟨_, ?_, .interpolation inside (hgroups _ List.mem_cons_self) hbody⟩
    simp
  | .openInterpolation _, hrest, _ => absurd rfl hrest

namespace Token

/-- The text `s` of a template literal at `p` is a body between backquotes, and `inside` are the
tokens of its interpolations. The last backquote stands outside of them, before the text `right`,
and an even number of backslashes precedes it. -/
def IsClosedLiteral (p : Position) (s : String) (inside : List Token) (right : List Char) : Prop :=
  ∃ body groups, s.toList = '\x60' :: (body ++ ['\x60']) ∧ inside = groups.flatten ∧
    LiteralBody (p.next '\x60') body groups ('\x60' :: right) ∧ finalBackslashes body % 2 = 0

/-- In the tokens of a template literal's interpolations, at whatever depth the literal stands, no
brace is closed that is not open; and if the literal ends before the source does, all braces are
closed, and so is the literal. -/
theorem braces_balance (source : String) {l : List Token} (h : Layer (tokenize source) l)
    {p : Position} {s : String} {inside : List Token} (ht : template p s inside ∈ l) :
    (∀ before, before <+: inside → closedBraces before ≤ openedBraces before) ∧
      ∃ left right, StandsBetween source (template p s inside) left right ∧
        (right ≠ [] →
          closedBraces inside = openedBraces inside ∧ IsClosedLiteral p s inside right) := by
  obtain ⟨groups, isClosed, hliteral⟩ := h.exists_isLiteral ht
  obtain rfl := hliteral.inside_eq
  obtain ⟨c, last, hc, hquote, body, heq⟩ := hliteral
  obtain ⟨rfl, rfl, -⟩ := Token.template.inj heq
  constructor
  · intro before hbefore
    have hnested : StaysNested 0 groups.flatten := by
      apply staysNested_flatten
      intro group hgroup
      obtain ⟨start, stop, -, code⟩ := body.code_of_mem (hc.advance 1) hgroup
      exact (code.nestsBraces rfl).nested
    simpa using hnested before hbefore
  · have hreaches : c.Reaches last := .of_advance body.reaches
    have hrest : c.rest = (Scan.literalBetween c last groups).text.toList ++ last.rest := by
      rw [Scan.literalBetween, text, String.toList_ofList]
      exact hreaches.rest_eq
    refine ⟨_, last.rest, .of_isIn hc rfl hrest, fun hright => ?_⟩
    have hgroups : ∀ group ∈ groups, BracesBalance group := fun group hgroup =>
      body.bracesBalance_of_mem hright hgroup
    refine ⟨closedBraces_flatten hgroups, ?_⟩
    obtain ⟨tail, htail, htiles⟩ := body.tiles
    obtain ⟨inner, rfl, hinner⟩ := htiles.exists_body hright hgroups
    obtain ⟨cs, hcs⟩ := List.head?_eq_some_iff.mp hquote
    have hslice : c.slice last = '\x60' :: (inner ++ ['\x60']) := by
      apply hreaches.slice_eq
      rw [Cursor.advance_rest, hcs, List.drop_succ_cons, List.drop_zero] at htail
      rw [hcs, htail]
      rfl
    rw [Cursor.advance_position, hcs] at hinner
    exact ⟨inner, groups, by rw [String.toList_ofList, hslice], rfl, hinner,
      hinner.even_finalBackslashes⟩

/-- Inside another literal, a literal with a brace of its own and one in a string ends after two
backslashes. -/
theorem braces_balance_inside_literal :
    Layer (tokenize "\x60$\x7b\x60$\x7b\x7b'\x7d'\x7d\x7d\\\\\x60\x7d\x60")
        [.template ⟨1, 4⟩ "\x60$\x7b\x7b'\x7d'\x7d\x7d\\\\\x60"
          [.plain .punctuation ⟨1, 7⟩ "\x7b", .plain .string ⟨1, 8⟩ "'\x7d'",
            .plain .punctuation ⟨1, 11⟩ "\x7d"]] ∧
      (∀ before, before <+: [plain .punctuation ⟨1, 7⟩ "\x7b", .plain .string ⟨1, 8⟩ "'\x7d'",
            .plain .punctuation ⟨1, 11⟩ "\x7d"] →
          closedBraces before ≤ openedBraces before) ∧
        IsClosedLiteral ⟨1, 4⟩ "\x60$\x7b\x7b'\x7d'\x7d\x7d\\\\\x60"
          [.plain .punctuation ⟨1, 7⟩ "\x7b", .plain .string ⟨1, 8⟩ "'\x7d'",
            .plain .punctuation ⟨1, 11⟩ "\x7d"] ['\x7d', '\x60'] := by
  have htokens : tokenize "\x60$\x7b\x60$\x7b\x7b'\x7d'\x7d\x7d\\\\\x60\x7d\x60" =
      [.template .start "\x60$\x7b\x60$\x7b\x7b'\x7d'\x7d\x7d\\\\\x60\x7d\x60"
        [.template ⟨1, 4⟩ "\x60$\x7b\x7b'\x7d'\x7d\x7d\\\\\x60"
          [.plain .punctuation ⟨1, 7⟩ "\x7b", .plain .string ⟨1, 8⟩ "'\x7d'",
            .plain .punctuation ⟨1, 11⟩ "\x7d"]]] := rfl
  have hlayer : Layer (tokenize "\x60$\x7b\x60$\x7b\x7b'\x7d'\x7d\x7d\\\\\x60\x7d\x60")
      [.template ⟨1, 4⟩ "\x60$\x7b\x7b'\x7d'\x7d\x7d\\\\\x60"
        [.plain .punctuation ⟨1, 7⟩ "\x7b", .plain .string ⟨1, 8⟩ "'\x7d'",
          .plain .punctuation ⟨1, 11⟩ "\x7d"]] := by
    rw [htokens]
    exact .inner .outer (List.mem_singleton.mpr rfl)
  obtain ⟨hnested, left, right, hstands, hclosed⟩ :=
    braces_balance _ hlayer (List.mem_singleton.mpr rfl)
  obtain ⟨-, rfl⟩ :=
    @StandsBetween.unique _ _ _ _ ['\x60', '$', '\x7b'] ['\x7d', '\x60'] hstands ⟨rfl, rfl⟩
  exact ⟨hlayer, hnested, (hclosed (List.cons_ne_nil _ _)).2⟩

end Token

end SymbolAtlas
