import SymbolAtlas.Proofs.Declaration
import SymbolAtlas.Proofs.Script.Statement
import SymbolAtlas.Proofs.Token.WordText

/-! # Declared names stand in the source

Whatever the tokens, also where brackets do not match or a statement breaks off, every declaration
names an identifier among them. A word outside all brackets introduces it, and the name stands
somewhere after this word.
-/

namespace SymbolAtlas.Script

open Token

def introducers : Declaration.Form → List String
  | .value => ["const", "let", "var"]
  | .function _ => ["function"]
  | .classType => ["class"]
  | .interfaceType => ["interface"]
  | .typeAlias => ["type"]
  | .enumeration => ["enum"]

/-! ## Names of patterns and declarators -/

theorem getD_target_names {steps : Nat} (us : List Token)
    (ih : ∀ ts names rest, target? steps ts = some (names, rest) → names ⊆ ts) :
    ((target? steps us).getD ([], us)).1 ⊆ us := by
  cases hu : target? steps us with
  | none => exact List.nil_subset us
  | some split => exact ih us _ _ hu

theorem entry_names {steps : Nat} (closer : String) (t : Token) (ts : List Token)
    (ih : ∀ ts names rest, target? steps ts = some (names, rest) → names ⊆ ts) :
    (entry steps closer t ts).1 ⊆ t :: ts := by
  have htail : ts ⊆ t :: ts := List.subset_cons_self t ts
  rw [entry]
  split
  · exact List.Subset.trans (getD_target_names ts ih) htail
  split
  · -- A key binds itself, or the target after its colon binds names.
    have hown : (if t.hasKind .identifier then [t] else []) ⊆ t :: ts := by
      split
      · exact List.cons_subset_cons t (List.nil_subset ts)
      · exact List.nil_subset _
    have hkey : afterKey (t :: ts) ⊆ t :: ts :=
      List.Subset.trans (afterKey_suffix t ts).subset htail
    cases hrest : afterKey (t :: ts) with
    | nil => exact hown
    | cons colon rest =>
      rw [hrest] at hkey
      rw [keyedTarget]
      split
      · exact List.Subset.trans (getD_target_names rest ih)
          (List.Subset.trans (List.subset_cons_self colon rest) hkey)
      · exact hown
  · cases ht : target? steps (t :: ts) with
    | none => exact List.nil_subset _
    | some split => exact ih _ _ _ ht

/-- The names that a target binds are among its tokens. -/
def TargetNames (steps : Nat) : Prop :=
  ∀ ts names rest, target? steps ts = some (names, rest) → names ⊆ ts

def EntryNames (steps : Nat) : Prop := ∀ closer ts, (entries steps closer ts).1 ⊆ ts

theorem EntryNames.target_succ {steps : Nat} (h : EntryNames steps) : TargetNames (steps + 1) := by
  intro ts names rest htarget
  cases ts with
  | nil =>
    rw [target_nil] at htarget
    cases htarget
  | cons t ts =>
    have pattern {closer : String} (h' : some (entries steps closer ts) = some (names, rest)) :
        names ⊆ t :: ts := by
      have hinside := h closer ts
      rw [Option.some.inj h'] at hinside
      exact List.Subset.trans hinside (List.subset_cons_self t ts)
    rw [target_cons] at htarget
    split at htarget
    · exact pattern htarget
    split at htarget
    · exact pattern htarget
    split at htarget
    · cases htarget
      exact List.cons_subset_cons t (List.nil_subset _)
    · cases htarget

theorem EntryNames.succ {steps : Nat} (h : EntryNames steps) (htarget : TargetNames steps) :
    EntryNames (steps + 1) := by
  intro closer ts
  cases ts with
  | nil =>
    rw [entries]
    exact List.nil_subset _
  | cons t ts =>
    have htail : ts ⊆ t :: ts := List.subset_cons_self t ts
    rw [entries_cons]
    split
    · exact List.nil_subset _
    split
    · exact List.Subset.trans (h closer ts) htail
    · have hafter := (afterEntry_suffix steps closer t ts).subset
      exact List.append_subset.mpr ⟨entry_names closer t ts htarget,
        List.Subset.trans (h closer _) (List.Subset.trans hafter htail)⟩

theorem pattern_names (steps : Nat) : TargetNames steps ∧ EntryNames steps := by
  induction steps with
  | zero =>
    refine ⟨fun ts names rest h => ?_, fun closer ts => ?_⟩
    · rw [target?] at h
      cases h
    · rw [entries]
      exact List.nil_subset ts
  | succ steps ih => exact ⟨ih.2.target_succ, ih.2.succ ih.1⟩

theorem declaratorNames_subset (steps : Nat) (ts : List Token) :
    declaratorNames steps ts ⊆ ts := by
  induction steps generalizing ts with
  | zero =>
    rw [declaratorNames]
    exact List.nil_subset ts
  | succ steps ih =>
    rw [declaratorNames]
    cases htarget : target? (2 * ts.length + 1) ts with
    | none => exact List.nil_subset ts
    | some split =>
      obtain ⟨names, rest⟩ := split
      have hnames := (pattern_names _).1 ts names rest htarget
      have hrest := (walksForward_afterDeclarator.suffix rest).trans (target_suffix htarget)
      simp only
      cases hafter : afterDeclarator rest with
      | nil => exact hnames
      | cons comma after =>
        rw [hafter] at hrest
        simp only
        split
        · exact List.append_subset.mpr
            ⟨hnames, List.Subset.trans (ih after)
              (List.Subset.trans (List.subset_cons_self comma after) hrest.subset)⟩
        · exact hnames

/-! ## What a word introduces -/

/-- The declaration names one of the tokens `rest`, in a form that the word `word` introduces. The
signature of a function begins with what stands before its name, and the name. -/
def NamesOneOf (rest : List Token) (word : String) (d : Declaration) : Prop :=
  (∃ t ∈ rest, isDeclarable t = true ∧ t.text = d.name ∧ t.position = d.position) ∧
    word ∈ introducers d.form ∧
    ∀ signature, d.form = .function signature →
      ∃ tail, signature = d.descriptor ++ " " ++ d.name ++ tail

section Introduced

variable {rest : List Token} {d : Declaration} {isExported : Bool}

theorem namesOneOf_declarationOf {form : Declaration.Form} {t : Token} {descriptor word : String}
    (ht : t ∈ rest) (hname : isDeclarable t = true) (hword : word ∈ introducers form)
    (hform : ∀ signature, form ≠ .function signature) :
    NamesOneOf rest word (declarationOf form t descriptor isExported) :=
  ⟨⟨t, ht, hname, rfl, rfl⟩, hword, fun signature h => absurd h (hform signature)⟩

theorem namesOneOf_named {form : Declaration.Form} {descriptor word : String}
    (h : d ∈ namedDeclaration form descriptor isExported rest) (hword : word ∈ introducers form)
    (hform : ∀ signature, form ≠ .function signature) : NamesOneOf rest word d := by
  cases rest with
  | nil => cases h
  | cons t rest =>
    rw [namedDeclaration, List.head?_cons] at h
    by_cases hname : isDeclarable t = true
    · rw [Option.filter_some_pos hname, Option.map_some, Option.toList_some,
        List.mem_singleton] at h
      rw [h]
      exact namesOneOf_declarationOf List.mem_cons_self hname hword hform
    · rw [Option.filter_some_neg (Bool.eq_false_iff.mpr hname)] at h
      cases h

theorem exists_of_mem_namedFunction {head : String} (h : d ∈ namedFunction head isExported rest) :
    ∃ name after, rest = name :: after ∧ isDeclarable name = true ∧
      d = declarationOf (.function (head ++ " " ++ name.text ++ signatureTail after)) name head
        isExported := by
  cases rest with
  | nil => cases h
  | cons name after =>
    rw [namedFunction] at h
    split at h
    · next hname => exact ⟨name, after, rfl, hname, List.mem_singleton.mp h⟩
    · cases h

theorem namesOneOf_function {isAsync : Bool}
    (h : d ∈ functionDeclaration isAsync isExported rest) : NamesOneOf rest "function" d := by
  have hsuffix := (WalksForward.id.stepOver (·.isOperator "*")).suffix rest
  rw [functionDeclaration_eq] at h
  obtain ⟨name, after, hstep, hname, rfl⟩ := exists_of_mem_namedFunction h
  rw [hstep] at hsuffix
  refine ⟨⟨name, hsuffix.subset List.mem_cons_self, hname, rfl, rfl⟩, List.mem_cons_self, ?_⟩
  intro signature hform
  exact ⟨signatureTail after, (Declaration.Form.function.inj hform).symm⟩

theorem namesOneOf_variable {t : Token} (ht : t.text ∈ introducers .value)
    (h : d ∈ ((variableNames rest).filter isDeclarable).map fun name =>
      declarationOf .value name t.text isExported) : NamesOneOf rest t.text d := by
  obtain ⟨name, hname, rfl⟩ := List.mem_map.mp h
  obtain ⟨hmem, hname⟩ := List.mem_filter.mp hname
  exact namesOneOf_declarationOf (declaratorNames_subset _ rest hmem) hname ht
    fun _ => Declaration.Form.noConfusion

/-- What a word introduces names a token after it. -/
theorem namesOneOf_of_mem {before : List Token} {t : Token} (h : d ∈ declarationsAt before t rest) :
    NamesOneOf rest t.text d := by
  unfold declarationsAt at h
  split at h
  case h_1 hword | h_2 hword | h_3 hword =>
    split at h
    · cases h
    · exact namesOneOf_variable (by rw [hword]; decide) h
  case h_4 hword =>
    split at h
    · rw [hword]
      exact namesOneOf_function h
    · cases h
  case h_5 hword =>
    split at h
    · exact namesOneOf_named h (by rw [hword]; decide) fun _ => Declaration.Form.noConfusion
    · cases h
  case h_6 hword | h_8 hword =>
    exact namesOneOf_named h (by rw [hword]; decide) fun _ => Declaration.Form.noConfusion
  case h_7 hword =>
    split at h
    · exact namesOneOf_named h (by rw [hword]; decide) fun _ => Declaration.Form.noConfusion
    · cases h
  case h_9 => cases h

end Introduced

/-! ## Declarations of a token list -/

/-- The word `w` between `before` and `after` stands outside every bracket and introduces `d`. -/
structure Introduces (before : List Token) (w : Token) (after : List Token) (d : Declaration) :
    Prop where
  outside : depthAfter 0 before = 0
  isWord : w.isWord = true
  found : d ∈ declarationsAt before.reverse w after

/-- What is found is introduced by a word outside every bracket. -/
theorem exists_of_mem_topLevelFrom {before ts : List Token} {depth : Nat} {d : Declaration}
    (h : d ∈ topLevelFrom before depth ts) :
    ∃ front w rest, ts = front ++ w :: rest ∧ depthAfter depth front = 0 ∧ w.isWord = true ∧
      d ∈ declarationsAt (front.reverse ++ before) w rest := by
  induction ts generalizing before depth with
  | nil => cases h
  | cons t ts ih =>
    rw [topLevelFrom_cons] at h
    rcases List.mem_append.mp h with h | h
    · split at h
      · next hword =>
        rw [Bool.and_eq_true, decide_eq_true_eq] at hword
        exact ⟨[], t, ts, rfl, hword.1, hword.2, h⟩
      · cases h
    · obtain ⟨front, w, rest, rfl, hdepth, hword, hfound⟩ := ih h
      refine ⟨t :: front, w, rest, rfl, hdepth, hword, ?_⟩
      rwa [List.reverse_cons, List.append_assoc, List.singleton_append]

theorem exists_introduces {ts : List Token} {d : Declaration} (h : d ∈ declarations ts) :
    ∃ before w after, ts = before ++ w :: after ∧ Introduces before w after d := by
  rcases Declarations.mem_insertAll h with h | h
  · cases h
  · obtain ⟨before, w, after, rfl, hdepth, hword, hfound⟩ := exists_of_mem_topLevelFrom h
    rw [List.append_nil] at hfound
    exact ⟨before, w, after, rfl, hdepth, hword, hfound⟩

theorem distinct_declarations (ts : List Token) : (declarations ts).Distinct :=
  Declarations.Distinct.insertAll List.Pairwise.nil _

/-- Every declaration of a source is found under its name, which is neither reserved nor built in.
A word outside every bracket introduces it, a word of its form, and the name is an identifier after
this word, outside every template literal, at the place of the declaration. The signature of a
function begins with its descriptor and its name. -/
theorem declarations_sound (content : String) {d : Declaration}
    (h : d ∈ declarations (tokenize content)) :
    (declarations (tokenize content)).find? (·.name == d.name) = some d ∧
      Vocabulary.isReserved d.name = false ∧ Vocabulary.isBuiltin d.name = false ∧
      (∃ before w after, tokenize content = before ++ w :: after ∧ Introduces before w after d ∧
        w.text ∈ introducers d.form ∧
        ∃ name ∈ after, name.hasKind .identifier = true ∧ name.text = d.name ∧
          name.position = d.position) ∧
      ∀ signature, d.form = .function signature →
        ∃ tail, signature = d.descriptor ++ " " ++ d.name ++ tail := by
  obtain ⟨before, w, after, htokens, hintroduces⟩ := exists_introduces h
  obtain ⟨⟨name, hmem, hname, htext, hposition⟩, hform, hsignature⟩ :=
    namesOneOf_of_mem hintroduces.found
  obtain ⟨hkind, hbuiltin⟩ := Bool.and_eq_true_iff.mp hname
  have hin : name ∈ tokenize content :=
    htokens ▸ List.mem_append_right before (List.mem_cons_of_mem w hmem)
  have hreserved := Layer.isReserved_eq_false .outer hin hkind
  rw [htext] at hreserved hbuiltin
  exact ⟨(distinct_declarations _).find?_name h, hreserved, Bool.not_eq_true' _ ▸ hbuiltin,
    ⟨before, w, after, htokens, hintroduces, hform, name, hmem, hkind, htext, hposition⟩,
    hsignature⟩

/-- A parameter list that is never closed, after a brace that was never opened. -/
theorem declarations_sound_malformed :
    ⟨.function "async function f(a)", "f", ⟨1, 18⟩, "async function", false⟩ ∈
        declarations (tokenize "\x7d async function f(a \x7b") ∧
      Vocabulary.isReserved "f" = false ∧ Vocabulary.isBuiltin "f" = false ∧
      (∃ before w after, tokenize "\x7d async function f(a \x7b" = before ++ w :: after ∧
        depthAfter 0 before = 0 ∧ w.text ∈ ["function"] ∧
        ∃ name ∈ after, name.text = "f" ∧ name.position = ⟨1, 18⟩) ∧
      ∃ tail, "async function f(a)" = "async function" ++ " " ++ "f" ++ tail := by
  have h : ⟨.function "async function f(a)", "f", ⟨1, 18⟩, "async function", false⟩ ∈
      declarations (tokenize "\x7d async function f(a \x7b") := by decide
  obtain ⟨-, hreserved, hbuiltin, ⟨before, w, after, htokens, hintroduces, hform, name, hmem, -,
    htext, hposition⟩, hsignature⟩ := declarations_sound _ h
  exact ⟨h, hreserved, hbuiltin, ⟨before, w, after, htokens, hintroduces.outside, hform, name,
    hmem, htext, hposition⟩, hsignature _ rfl⟩

end SymbolAtlas.Script
