import SymbolAtlas.Proofs.Token.Place
import SymbolAtlas.Proofs.Token.WordText
import SymbolAtlas.Proofs.Usage.MemberAccess

/-! # Ordinary names

The references of a source are those of its identifiers, at any depth, that stand outside every
clause of an import and that their two neighbours leave references; they come in reading order. For
an ordinary name, neither built in nor contextual, only the neighbour before it matters.
-/

namespace SymbolAtlas.Script

open Token

/-! ## Which tokens are references -/

theorem mem_referencesIn {before after ts : List Token} {r : Reference}
    (h : r ∈ referencesIn before after ts) :
    ∃ pre t post, ts = pre ++ t :: post ∧ r ∈ contributed (before ++ pre) t (post ++ after) := by
  induction ts generalizing before with
  | nil => cases h
  | cons u us ih =>
    rw [referencesIn, List.mem_append] at h
    rcases h with h | h
    · exact ⟨[], u, us, rfl, by rwa [List.append_nil]⟩
    · obtain ⟨pre, t, post, hus, hcontributed⟩ := ih h
      rw [List.append_assoc, List.singleton_append] at hcontributed
      exact ⟨u :: pre, t, post, by rw [hus, List.cons_append], hcontributed⟩

/-- Every reference is a free token that its neighbours leave one. -/
theorem exists_standsFree_of_mem_references {ts : List Token} {r : Reference}
    (h : r ∈ references ts) :
    ∃ before t after, StandsFree ts before t after ∧
      isReference before.getLast? t after.head? = true ∧ r = ⟨t.text, t.position⟩ := by
  rw [references_eq_referencesIn] at h
  obtain ⟨before, t, after, hts, h⟩ := mem_referencesIn h
  rw [List.nil_append, List.append_nil] at h
  have hfree : ¬ LeavesClauseOpen before (some t) := fun hopen => by
    rw [contributed, clauseThrough_false_iff.mpr hopen] at h
    cases h
  have hmem : t ∈ ts := hts ▸ List.mem_append_right before List.mem_cons_self
  rw [hts]
  cases t with
  | plain kind p s =>
    rw [contributed, Bool.eq_false_iff.mpr (mt clauseThrough_false_iff.mp hfree),
      contribution_plain] at h
    split at h
    · next href => exact ⟨before, _, after, .here hfree, href, List.mem_singleton.mp h⟩
    · cases h
  | template p s inside =>
    rw [contributed_template after hfree] at h
    obtain ⟨before', t, after', hnext, href, heq⟩ := exists_standsFree_of_mem_references h
    exact ⟨before', t, after', .inside hfree hnext, href, heq⟩
termination_by sizeOf ts
decreasing_by
  have := List.sizeOf_lt_of_mem hmem
  simp only [Token.template.sizeOf_spec] at this
  omega

theorem mem_references_iff {ts : List Token} {r : Reference} :
    r ∈ references ts ↔ ∃ before t after, StandsFree ts before t after ∧
      isReference before.getLast? t after.head? = true ∧ r = ⟨t.text, t.position⟩ := by
  constructor
  · exact exists_standsFree_of_mem_references
  · rintro ⟨before, t, after, hfree, href, rfl⟩
    exact hfree.mem_references href

theorem StandsFree.layer_self {ts before after : List Token} {t : Token}
    (h : StandsFree ts before t after) : Layer ts (before ++ t :: after) := by
  induction h with
  | here => exact .outer
  | inside _ _ ih =>
    exact .trans (.inner .outer (List.mem_append_right _ List.mem_cons_self)) ih

/-- A token of a source, at any depth, is a reference exactly if it stands free and its neighbours
leave it one. -/
theorem mem_references_tokenize_iff {source : String} {before after : List Token} {t : Token}
    (h : Layer (tokenize source) (before ++ t :: after)) :
    ⟨t.text, t.position⟩ ∈ references (tokenize source) ↔
      StandsFree (tokenize source) before t after ∧
        isReference before.getLast? t after.head? = true := by
  rw [mem_references_iff]
  constructor
  · rintro ⟨before', t', after', hfree, href, heq⟩
    -- No other token of the source begins at this place.
    obtain ⟨rfl, rfl, rfl⟩ := h.eq_of_position_eq hfree.layer_self (Reference.mk.inj heq).2
    exact ⟨hfree, href⟩
  · rintro ⟨hfree, href⟩
    exact ⟨before, t, after, hfree, href, rfl⟩

/-- What follows an ordinary name makes no difference. -/
theorem isReference_ordinary {previous next : Option Token} {t : Token}
    (hkind : t.hasKind .identifier = true) (hbuiltin : Vocabulary.isBuiltin t.text = false)
    (hcontextual : Vocabulary.isContextual t.text = false) :
    isReference previous t next = true ↔
      previous.any isMemberAccess = false ∧ previous.any isDeclaring = false := by
  simp [isReference, actsAsKeyword, hkind, hbuiltin, hcontextual, and_comm]

/-! ## Reading order -/

/-- The references are to what begins between the indices `lo` and `hi` of the source, and in
reading order. -/
structure InOrder (source : List Char) (lo hi : Nat) (rs : List Reference) : Prop where
  within : ∀ r ∈ rs, ∃ a, lo ≤ a ∧ a < hi ∧ a < source.length ∧
    r.position = Position.start.after (source.take a)
  ordered : rs.Pairwise fun r s => r.position.before s.position = true

namespace InOrder

variable {source : List Char} {lo mid hi : Nat} {rs ss : List Reference}

theorem nil : InOrder source lo hi [] := ⟨by simp, .nil⟩

theorem widen {lo' hi' : Nat} (h : InOrder source lo hi rs) (hlo : lo' ≤ lo) (hhi : hi ≤ hi') :
    InOrder source lo' hi' rs where
  within r hr := by
    obtain ⟨a, ha, ha', hlt, hposition⟩ := h.within r hr
    exact ⟨a, by omega, by omega, hlt, hposition⟩
  ordered := h.ordered

theorem append (h : InOrder source lo mid rs) (h' : InOrder source mid hi ss)
    (hlo : lo ≤ mid) (hhi : mid ≤ hi) : InOrder source lo hi (rs ++ ss) where
  within := by
    rw [List.forall_mem_append]
    exact ⟨(h.widen (Nat.le_refl _) hhi).within, (h'.widen hlo (Nat.le_refl _)).within⟩
  ordered := by
    refine List.pairwise_append.mpr ⟨h.ordered, h'.ordered, fun r hr s hs => ?_⟩
    obtain ⟨a, -, ha, -, hposition⟩ := h.within r hr
    obtain ⟨b, hb, -, hlt, hposition'⟩ := h'.within s hs
    rw [hposition, hposition']
    exact Position.before_after_take (by omega) (Nat.le_of_lt hlt) _

end InOrder

theorem InOrder.contribution_plain {source : List Char} {a b : Nat} {kind : Token.Kind}
    {p : Position} {s : String} (covers : Covers source (.plain kind p s) a b)
    (previous : Option Token) (isOpen : Bool) (next : Option Token) :
    InOrder source a b (contribution previous isOpen (.plain kind p s) next) := by
  have hone : InOrder source a b [⟨s, p⟩] := by
    refine ⟨fun r hr => ?_, List.pairwise_singleton _ _⟩
    rw [List.mem_singleton.mp hr]
    exact ⟨a, Nat.le_refl a, covers.lt, Nat.lt_of_lt_of_le covers.lt covers.le,
      covers.position_eq⟩
  cases isOpen with
  | true => exact .nil
  | false =>
    rw [Script.contribution_plain]
    split
    · exact hone
    · exact .nil

theorem inOrder_referencesFrom {source : List Char} {lo hi : Nat} {ts : List Token}
    (h : Laid source lo ts hi) (previous : Option Token) (isOpen : Bool) :
    InOrder source lo hi (referencesFrom previous isOpen ts) := by
  induction h generalizing previous isOpen with
  | nil =>
    rw [referencesFrom]
    exact .nil
  | plain hlo covers next ih =>
    rw [referencesFrom_cons]
    have hown := InOrder.contribution_plain covers previous isOpen
    exact (hown _).widen hlo (Nat.le_refl _) |>.append (ih _ _)
      (Nat.le_trans hlo (Nat.le_of_lt covers.lt)) next.le
  | template hlo covers within hmid next ihwithin ih =>
    rw [referencesFrom_cons]
    refine InOrder.append ?_ (ih _ _) (Nat.le_trans hlo (Nat.le_of_lt covers.lt)) next.le
    cases isOpen with
    | true => exact .nil
    | false => exact (ihwithin none false).widen (Nat.le_succ_of_le hlo) (by omega)

/-- An identifier at any depth of a source whose name is ordinary is a reference exactly if neither
it nor a literal around it is in an import clause and the token before it is neither a member
access nor a declaring word. The references are in reading order, without repetition, and none of
them is to a reserved word or to a built-in name. -/
theorem references_exact (content : String) (filename : Option String) :
    (∀ before t after, Layer (tokenize content) (before ++ t :: after) →
        t.hasKind .identifier = true → Vocabulary.isBuiltin t.text = false →
          Vocabulary.isContextual t.text = false →
            (⟨t.text, t.position⟩ ∈ (outline content filename).references ↔
              StandsFree (tokenize content) before t after ∧
                before.getLast?.any isMemberAccess = false ∧
                  before.getLast?.any isDeclaring = false)) ∧
      (outline content filename).references.Pairwise
        (fun r s => r.position.before s.position = true) ∧
      ∀ r ∈ (outline content filename).references,
        Vocabulary.isReserved r.name = false ∧ Vocabulary.isBuiltin r.name = false := by
  refine ⟨?_, ?_, ?_⟩
  · intro before t after hlayer hkind hbuiltin hcontextual
    rw [← isReference_ordinary hkind hbuiltin hcontextual]
    exact mem_references_tokenize_iff hlayer
  · obtain ⟨_, _, hlaid⟩ := tokenize_laid content
    exact (inOrder_referencesFrom hlaid none false).ordered
  · intro r hr
    obtain ⟨before, t, after, hfree, href, rfl⟩ := exists_standsFree_of_mem_references hr
    obtain ⟨l, hl, ht⟩ := hfree.layer .outer
    exact ⟨hl.isReserved_eq_false ht (hasKind_of_isReference href), isBuiltin_of_mem_references hr⟩

/-- The object of a member access inside a literal is a reference, the member is none. -/
theorem references_exact_inside_literal :
    ⟨"m", ⟨2, 4⟩⟩ ∈ (outline "import m from 'm';\n\x60$\x7bm.k\x7d\x60" none).references ∧
      ⟨"k", ⟨2, 6⟩⟩ ∉ (outline "import m from 'm';\n\x60$\x7bm.k\x7d\x60" none).references := by
  let m := Token.plain .identifier ⟨2, 4⟩ "m"
  let dot := Token.plain .punctuation ⟨2, 5⟩ "."
  let k := Token.plain .identifier ⟨2, 6⟩ "k"
  have htokens : tokenize "import m from 'm';\n\x60$\x7bm.k\x7d\x60" =
      [.plain .keyword ⟨1, 1⟩ "import", .plain .identifier ⟨1, 8⟩ "m",
          .plain .identifier ⟨1, 10⟩ "from", .plain .string ⟨1, 15⟩ "'m'",
          .plain .punctuation ⟨1, 18⟩ ";"] ++
        .template ⟨2, 1⟩ "\x60$\x7bm.k\x7d\x60" ([] ++ m :: [dot, k]) :: [] := rfl
  have hlayer : Layer (tokenize "import m from 'm';\n\x60$\x7bm.k\x7d\x60")
      ([] ++ m :: [dot, k]) := by
    rw [htokens]
    exact .inner .outer (List.mem_append_right _ (List.mem_singleton_self _))
  have hfree : StandsFree (tokenize "import m from 'm';\n\x60$\x7bm.k\x7d\x60") [] m [dot, k] := by
    rw [htokens]
    exact .inside (mt clauseThrough_false_iff.mpr (by decide))
      (.here (mt clauseThrough_false_iff.mpr (by decide)))
  have hexact := (references_exact "import m from 'm';\n\x60$\x7bm.k\x7d\x60" none).1
  constructor
  · exact (hexact [] m [dot, k] hlayer rfl rfl rfl).mpr ⟨hfree, rfl, rfl⟩
  · intro hmem
    have hdot : isMemberAccess dot = false :=
      ((hexact [m, dot] k [] hlayer rfl rfl rfl).mp hmem).2.1
    cases hdot

end SymbolAtlas.Script
