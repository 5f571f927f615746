import Mathlib.Data.List.TakeWhile
import SymbolAtlas.Config.Environment
import SymbolAtlas.Proofs.Config.Validation
import SymbolAtlas.Proofs.Python.Word
import SymbolAtlas.Proofs.Text.Pieces

/-! # Configurations in environment variables

An environment gives a configuration when its variables list the extensions and the index files and
spell the flag. Between the commas of a list stand the entries, in order, with blanks around them,
and there may be more commas with blanks or nothing between them. From such an environment the
configuration is read back.
-/

namespace SymbolAtlas

/-- Blanks at the ends of a text are trimmed, and nothing else is. -/
theorem trim_padded {before cs after : List Char} (hbefore : ∀ c ∈ before, isBlank c = true)
    (hafter : ∀ c ∈ after, isBlank c = true) (hhead : ∀ c ∈ cs.head?, isBlank c = false)
    (hlast : ∀ c ∈ cs.getLast?, isBlank c = false) : trim (before ++ cs ++ after) = cs := by
  have hstop {ds : List Char} (hds : ∀ c ∈ ds.head?, isBlank c = false) :
      ds.dropWhile isBlank = ds := by
    cases ds with
    | nil => rfl
    | cons d ds => exact List.dropWhile_cons_of_neg (by simp [hds d rfl])
  rw [trim, List.append_assoc, List.dropWhile_append_of_pos hbefore]
  cases cs with
  | nil =>
    rw [List.nil_append, List.dropWhile_eq_nil_iff.mpr hafter]
    rfl
  | cons c cs =>
    have hsolid : (c :: cs ++ after).dropWhile isBlank = c :: cs ++ after := hstop hhead
    rw [hsolid, List.reverse_append,
      List.dropWhile_append_of_pos fun d hd => hafter d (List.mem_reverse.mp hd),
      hstop (by rwa [List.head?_reverse]), List.reverse_reverse]

namespace Environment

/-! ## Lists -/

/-- The texts have the entries in order, each with blanks around it, and beside them blanks. -/
inductive Holds : List String → List (List Char) → Prop
  | nil : Holds [] []
  | blank {entries : List String} {texts : List (List Char)} {blanks : List Char}
      (hblanks : ∀ c ∈ blanks, isBlank c = true) (h : Holds entries texts) :
      Holds entries (blanks :: texts)
  | entry {entry : String} {entries : List String} {texts : List (List Char)}
      {before after : List Char} (hbefore : ∀ c ∈ before, isBlank c = true)
      (hafter : ∀ c ∈ after, isBlank c = true) (h : Holds entries texts) :
      Holds (entry :: entries) ((before ++ entry.toList ++ after) :: texts)

/-- The value lists the entries, with commas between them. -/
def Lists (value : String) (entries : List String) : Prop :=
  ∃ texts, Holds entries texts ∧ value.toList = joinWith [','] texts

/-- A text that may be an entry of a list: it has no comma in it and no blank at its ends. -/
structure IsEntry (s : String) : Prop where
  comma_not_mem : ',' ∉ s.toList
  head : ∀ c ∈ s.toList.head?, isBlank c = false
  last : ∀ c ∈ s.toList.getLast?, isBlank c = false

theorem comma_not_mem_of_blanks {blanks : List Char} (h : ∀ c ∈ blanks, isBlank c = true) :
    ',' ∉ blanks := by
  intro hcomma
  exact absurd (h ',' hcomma) (by decide)

theorem Holds.comma_not_mem {entries : List String} {texts : List (List Char)}
    (h : Holds entries texts) (hentries : ∀ e ∈ entries, IsEntry e) :
    ∀ text ∈ texts, ',' ∉ text := by
  induction h with
  | nil => exact fun _ htext => absurd htext List.not_mem_nil
  | blank hblanks _ ih =>
    exact List.forall_mem_cons.mpr ⟨comma_not_mem_of_blanks hblanks, ih hentries⟩
  | entry hbefore hafter _ ih =>
    obtain ⟨hentry, hentries⟩ := List.forall_mem_cons.mp hentries
    refine List.forall_mem_cons.mpr ⟨?_, ih hentries⟩
    simp only [List.mem_append, not_or]
    exact ⟨⟨comma_not_mem_of_blanks hbefore, hentry.comma_not_mem⟩,
      comma_not_mem_of_blanks hafter⟩

theorem Holds.entries_eq {entries : List String} {texts : List (List Char)}
    (h : Holds entries texts) (hentries : ∀ e ∈ entries, IsEntry e ∧ e ≠ "") :
    ((texts.map trim).filter (!·.isEmpty)).map String.ofList = entries := by
  induction h with
  | nil => rfl
  | @blank _ _ blanks hblanks _ ih =>
    have hnil : trim blanks = [] := by
      simpa using @trim_padded blanks [] [] hblanks nofun nofun nofun
    rw [List.map_cons, hnil]
    exact ih hentries
  | @entry entry _ _ _ _ hbefore hafter _ ih =>
    obtain ⟨⟨hentry, hne⟩, hentries⟩ := List.forall_mem_cons.mp hentries
    rw [List.map_cons, trim_padded hbefore hafter hentry.head hentry.last,
      List.filter_cons_of_pos (by simpa using hne), List.map_cons, ih hentries,
      String.ofList_toList]

/-- The entries that a value lists are read off it. -/
theorem Lists.listEntries_eq {value : String} {entries : List String} (h : Lists value entries)
    (hentries : ∀ e ∈ entries, IsEntry e ∧ e ≠ "") : listEntries value = entries := by
  obtain ⟨texts, hholds, hvalue⟩ := h
  rw [listEntries, hvalue]
  by_cases htexts : texts = []
  · subst htexts
    cases hholds
    rfl
  · rw [splitAt_joinWith htexts (hholds.comma_not_mem fun e he => (hentries e he).1),
      hholds.entries_eq hentries]

/-! ## Flags -/

/-- The words for a truth value. -/
def flagWords (flag : Bool) : List String := if flag then ["true", "1"] else ["false", "0"]

/-- The value spells the truth value: a word for it in any letter case, with blanks around it. -/
def Spells (value : String) (flag : Bool) : Prop :=
  ∃ before word after, (∀ c ∈ before, isBlank c = true) ∧ (∀ c ∈ after, isBlank c = true) ∧
    value.toList = before ++ word ++ after ∧
    ∃ name ∈ flagWords flag, List.Forall₂ (fun c d => c = d ∨ c = d.toUpper) word name.toList

/-- The letters of the words are small, and they are no blanks. -/
theorem flagWords_letters (flag : Bool) : ∀ name ∈ flagWords flag, ∀ d ∈ name.toList,
    d.toLower = d ∧ d.toUpper.toLower = d ∧ isBlank d = false ∧ isBlank d.toUpper = false := by
  have hall : (flagWords flag).all (fun name => name.toList.all fun d =>
      d.toLower = d ∧ d.toUpper.toLower = d ∧ isBlank d = false ∧ isBlank d.toUpper = false) =
        true := by
    cases flag <;> decide
  intro name hname d hd
  exact of_decide_eq_true (List.all_eq_true.mp (List.all_eq_true.mp hall name hname) d hd)

/-- A word in any letter case is the word in small letters, and has no blanks. -/
theorem lowercase_of_case {word name : List Char}
    (hcase : List.Forall₂ (fun c d => c = d ∨ c = d.toUpper) word name)
    (hname : ∀ d ∈ name, d.toLower = d ∧ d.toUpper.toLower = d ∧ isBlank d = false ∧
      isBlank d.toUpper = false) :
    lowercase word = name ∧ ∀ c ∈ word, isBlank c = false := by
  induction hcase with
  | nil => exact ⟨rfl, nofun⟩
  | @cons c d word name hc _ ih =>
    obtain ⟨⟨hlower, hupper, hsolid, hsolid'⟩, hname⟩ := List.forall_mem_cons.mp hname
    obtain ⟨hword, hblank⟩ := ih hname
    have hletter : c.toLower = d ∧ isBlank c = false := by
      rcases hc with rfl | rfl
      · exact ⟨hlower, hsolid⟩
      · exact ⟨hupper, hsolid'⟩
    rw [lowercase, List.map_cons, hletter.1, ← lowercase, hword]
    exact ⟨rfl, List.forall_mem_cons.mpr ⟨hletter.2, hblank⟩⟩

theorem Spells.flag?_eq {value : String} {flag : Bool} (h : Spells value flag) :
    flag? value = some flag := by
  obtain ⟨before, word, after, hbefore, hafter, hvalue, name, hname, hcase⟩ := h
  obtain ⟨hlower, hsolid⟩ := lowercase_of_case hcase (flagWords_letters flag name hname)
  have hword : trim value.toList = word := by
    rw [hvalue]
    exact trim_padded hbefore hafter (fun c hc => hsolid c (List.mem_of_mem_head? hc))
      fun c hc => hsolid c (List.mem_of_mem_getLast? hc)
  rw [flag?, hword, hlower, String.ofList_toList]
  cases flag with
  | true => rcases List.mem_pair.mp hname with rfl | rfl <;> rfl
  | false => rcases List.mem_pair.mp hname with rfl | rfl <;> rfl

/-! ## Environments -/

/-- The environment gives the configuration. -/
structure Gives (e : Environment) (config : Config) : Prop where
  extensions : ∃ value, e.extensions = some value ∧ Lists value config.extensions
  indexFiles : ∃ value, e.indexFiles = some value ∧ Lists value config.indexFiles
  includeExported : ∃ value, e.includeExported = some value ∧ Spells value config.includeExported

theorem isEntry_of_isExtension {s : String} (h : Config.IsExtension s) : IsEntry s := by
  obtain ⟨rest, hs, -, hrest⟩ := h
  have hchar (c : Char) (hc : c ∈ s.toList) : isBlank c = false ∧ c ≠ ',' := by
    have hword {c : Char} (hc : Identifier.isAsciiWord c = true) : isBlank c = false ∧ c ≠ ',' :=
      Python.forall_ascii (P := fun c => Identifier.isAsciiWord c = true →
        isBlank c = false ∧ c ≠ ',') (by decide +kernel) (Python.toNat_of_isAsciiWord hc) hc
    have hother (c : Char) (hc : c ∈ ['.', '+', '-']) : isBlank c = false ∧ c ≠ ',' := by
      rw [List.mem_cons, List.mem_pair] at hc
      rcases hc with rfl | rfl | rfl <;> decide
    rw [hs] at hc
    rcases List.mem_cons.mp hc with rfl | hc
    · exact hother _ List.mem_cons_self
    · exact (hrest c hc).elim hword (hother c)
  exact ⟨fun hcomma => (hchar _ hcomma).2 rfl, fun c hc => (hchar c (List.mem_of_mem_head? hc)).1,
    fun c hc => (hchar c (List.mem_of_mem_getLast? hc)).1⟩

theorem Gives.overrides_eq {e : Environment} {config : Config} (h : e.Gives config)
    (hvalid : config.IsValid) (hfiles : ∀ file ∈ config.indexFiles, IsEntry file) :
    e.overrides = .ok config.toValue := by
  obtain ⟨⟨extensions, hextensions, hlists⟩, ⟨indexFiles, hindexFiles, hlists'⟩,
    ⟨includeExported, hincludeExported, hspells⟩⟩ := h
  have hextensionsEq := hlists.listEntries_eq fun s hs => by
    have hs := hvalid.extensions s hs
    refine ⟨isEntry_of_isExtension hs, ?_⟩
    rintro rfl
    obtain ⟨rest, hrest, -⟩ := hs
    cases hrest
  have hindexFilesEq := hlists'.listEntries_eq fun s hs =>
    ⟨hfiles s hs, (hvalid.indexFiles s hs).1⟩
  rw [overrides, hextensions, hindexFiles, hincludeExported]
  simp only [Option.map_some, hextensionsEq, hindexFilesEq, hspells.flag?_eq]
  rfl

/-- A valid configuration is read back from any environment that gives it, if its index files may
be entries of a list. -/
theorem ofValue_overrides {e : Environment} {config : Config} (hvalid : config.IsValid)
    (hfiles : ∀ file ∈ config.indexFiles, IsEntry file) (h : e.Gives config) :
    (e.overrides >>= fun v => Config.ofValue (some v)) = .ok config := by
  rw [h.overrides_eq hvalid hfiles]
  exact hvalid.ofValue_toValue

/-- An environment with blanks around entries, blank entries, a list of blanks only and capitals. -/
def padded : Environment := ⟨some "\u00a0.ts ,, .d.ts,", some " ,\t", some " FaLSE\n"⟩

theorem ofValue_overrides_padded : padded.Gives ⟨[".ts", ".d.ts"], [], false⟩ ∧
    (padded.overrides >>= fun v => Config.ofValue (some v)) =
      .ok ⟨[".ts", ".d.ts"], [], false⟩ := by
  have hall : [".ts", ".d.ts"].all Config.isExtension = true := by decide
  have hvalid : Config.IsValid ⟨[".ts", ".d.ts"], [], false⟩ :=
    ⟨fun e he => Config.isExtension_iff.mp (List.all_eq_true.mp hall e he), nofun⟩
  -- Blanks are looked at one by one: `decide` would go through all characters.
  have hblanks {cs : List Char} (h : cs.all isBlank = true) : ∀ c ∈ cs, isBlank c = true :=
    List.all_eq_true.mp h
  have hextensions : Holds [".ts", ".d.ts"]
      [['\u00a0'] ++ ".ts".toList ++ [' '], [], [' '] ++ ".d.ts".toList ++ [], []] :=
    .entry (hblanks rfl) (hblanks rfl) <| .blank nofun <| .entry (hblanks rfl) nofun <|
      .blank nofun .nil
  have hindexFiles : Holds [] [[' '], ['\t']] := .blank (hblanks rfl) <| .blank (hblanks rfl) .nil
  have hgives : padded.Gives ⟨[".ts", ".d.ts"], [], false⟩ :=
    ⟨⟨_, rfl, _, hextensions, by decide⟩, ⟨_, rfl, _, hindexFiles, by decide⟩,
      ⟨_, rfl, [' '], "FaLSE".toList, ['\n'], hblanks rfl, hblanks rfl, by decide, "false",
        List.mem_cons_self, by decide⟩⟩
  exact ⟨hgives, ofValue_overrides hvalid nofun hgives⟩

end Environment

end SymbolAtlas
