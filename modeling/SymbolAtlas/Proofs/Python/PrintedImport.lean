import SymbolAtlas.Import
import SymbolAtlas.Proofs.Python.Word
import SymbolAtlas.Python.Lines.Imports

/-! # Import statements as they are printed

An import statement is printed on an unindented line of its own, with one space between words and
after each comma. Its names are names in ASCII and may be words of the language, save where the
path of a module begins: there the grammar reads `import` and `__future__` as keywords.
-/

namespace SymbolAtlas.Python

/-! ## Statements -/

structure DottedName where
  first : Name
  others : List Name
  deriving DecidableEq

structure Entry where
  path : DottedName
  rename : Option Name
  deriving DecidableEq

structure Entries where
  first : Entry
  others : List Entry
  deriving DecidableEq

def importWord : Name := ⟨['i', 'm', 'p', 'o', 'r', 't'], rfl⟩

def fromWord : Name := ⟨['f', 'r', 'o', 'm'], rfl⟩

def asWord : Name := ⟨['a', 's'], rfl⟩

/-- The words that the grammar reads as keywords where the path of a module may begin. -/
def pathKeywords : List (List Char) := [importWord.chars, "__future__".toList]

structure ModulePath where
  path : DottedName
  isFree : path.first.chars ∉ pathKeywords
  deriving DecidableEq

inductive ModuleName where
  | absolute (path : ModulePath)
  /-- A dot, further dots, and perhaps a path. -/
  | relative (further : Nat) (path : Option ModulePath)
  deriving DecidableEq

inductive ImportStatement where
  /-- `import a, b.c as d` -/
  | plain (entries : Entries)
  /-- `from m import a, b as c` -/
  | listed (module : ModuleName) (entries : Entries)
  /-- `from m import *` -/
  | wildcard (module : ModuleName)
  deriving DecidableEq

/-! ## Printing -/

def dottedRest (names : List Name) : List Char := names.flatMap fun n => '.' :: n.chars

def DottedName.chars (d : DottedName) : List Char := d.first.chars ++ dottedRest d.others

def renameText (rename : Option Name) : List Char :=
  (rename.map fun n => ' ' :: (asWord.chars ++ ' ' :: n.chars)).getD []

def Entry.chars (e : Entry) : List Char := e.path.chars ++ renameText e.rename

def entriesRest (entries : List Entry) : List Char :=
  entries.flatMap fun e => [',', ' '] ++ e.chars

def Entries.chars (es : Entries) : List Char := es.first.chars ++ entriesRest es.others

def ModuleName.chars : ModuleName → List Char
  | absolute path => path.path.chars
  | relative further path =>
    '.' :: List.replicate further '.' ++ (path.map (·.path.chars)).getD []

def ImportStatement.chars : ImportStatement → List Char
  | plain entries => importWord.chars ++ ' ' :: entries.chars
  | listed module entries =>
    fromWord.chars ++ ' ' :: (module.chars ++ ' ' :: (importWord.chars ++ ' ' :: entries.chars))
  | wildcard module =>
    fromWord.chars ++ ' ' :: (module.chars ++ ' ' :: (importWord.chars ++ [' ', '*']))

/-- The text after a statement that is followed by the text `next` of others: the line ends, unless
it is the last one and `isEnded` does not hold. -/
def afterStatement (isEnded : Bool) (next : List Char) : List Char :=
  if isEnded || !next.isEmpty then '\n' :: next else []

/-- The text of import statements, one on each line. The last line ends if `isEnded`. -/
def importText (isEnded : Bool) : List ImportStatement → List Char
  | [] => []
  | s :: statements => s.chars ++ afterStatement isEnded (importText isEnded statements)

/-! ## Meaning -/

def Entry.binding (e : Entry) : Binding :=
  ⟨String.ofList e.path.chars, e.rename.map fun n => String.ofList n.chars⟩

def Entries.bindings (es : Entries) : List Binding := (es.first :: es.others).map Entry.binding

def ImportStatement.imports (position : Position) : ImportStatement → List Import
  | plain entries => entries.bindings.map fun b => ⟨.plain [b], b.name, position⟩
  | listed module entries =>
    [⟨.fromModule entries.bindings, String.ofList module.chars, position⟩]
  | wildcard module => [⟨.fromModule [⟨"*", none⟩], String.ofList module.chars, position⟩]

/-- The imports that statements make, one on each line and the first on line `number`. -/
def importsFrom (number : Int) : List ImportStatement → List Import
  | [] => []
  | s :: statements => s.imports ⟨number, 1⟩ ++ importsFrom (number + 1) statements

/-! ## What the text begins with -/

theorem DottedName.exists_cons (d : DottedName) :
    ∃ c cs, d.chars = c :: cs ∧ Identifier.isAsciiWordStart c = true := by
  obtain ⟨c, cs, h, hc⟩ := d.first.exists_cons
  exact ⟨c, cs ++ dottedRest d.others, by rw [chars, h, List.cons_append], hc⟩

theorem ImportStatement.exists_cons (s : ImportStatement) :
    ∃ c cs, s.chars = c :: cs ∧ (c = 'i' ∨ c = 'f') := by
  cases s with
  | plain entries => exact ⟨_, _, rfl, .inl rfl⟩
  | listed module entries => exact ⟨_, _, rfl, .inr rfl⟩
  | wildcard module => exact ⟨_, _, rfl, .inr rfl⟩

/-- How long an import from a module is: the module, what it lists, and the words around them. -/
theorem length_moduleImport (m : ModuleName) (text : List Char) :
    (fromWord.chars ++ ' ' :: (m.chars ++ ' ' :: (importWord.chars ++ ' ' :: text))).length =
      13 + m.chars.length + text.length := by
  simp only [List.length_append, List.length_cons, fromWord, importWord, List.length_nil]
  omega

/-! ## What characters the text has -/

open Lines

theorem isDottedPart_of_mem_name {n : Name} {c : Char} (h : c ∈ n.chars) :
    isDottedPart c = true := by
  rw [isDottedPart, n.isAsciiWord_of_mem h, Bool.true_or]

theorem isDottedPart_of_mem (d : DottedName) : ∀ c ∈ d.chars, isDottedPart c = true := by
  rw [DottedName.chars, List.forall_mem_append]
  refine ⟨fun c hc => isDottedPart_of_mem_name hc, ?_⟩
  intro c hc
  obtain ⟨n, _, hc⟩ := List.mem_flatMap.mp hc
  rcases List.mem_cons.mp hc with rfl | hc
  · rfl
  · exact isDottedPart_of_mem_name hc

theorem isDottedPart_of_mem_module (m : ModuleName) : ∀ c ∈ m.chars, isDottedPart c = true := by
  cases m with
  | absolute p => exact isDottedPart_of_mem p.path
  | relative further path =>
    rw [ModuleName.chars, List.forall_mem_append, List.forall_mem_cons]
    refine ⟨⟨rfl, ?_⟩, ?_⟩
    · intro c hc
      rw [(List.mem_replicate.mp hc).2]
      rfl
    · cases path with
      | none => simp
      | some p => exact isDottedPart_of_mem p.path

/-- A character of a printed entry. -/
def isEntryPart (c : Char) : Bool := isDottedPart c || c == ' '

def isListPart (c : Char) : Bool := isEntryPart c || c == ','

def isPrinted (c : Char) : Bool := isListPart c || c == '*'

theorem isPrinted_of_isDottedPart {c : Char} (h : isDottedPart c = true) : isPrinted c = true := by
  rw [isPrinted, isListPart, isEntryPart, h]
  rfl

theorem isEntryPart_of_mem (e : Entry) : ∀ c ∈ e.chars, isEntryPart c = true := by
  have hname (n : Name) : ∀ c ∈ n.chars, isEntryPart c = true := fun c hc => by
    rw [isEntryPart, isDottedPart_of_mem_name hc, Bool.true_or]
  rw [Entry.chars, List.forall_mem_append]
  refine ⟨fun c hc => by rw [isEntryPart, isDottedPart_of_mem e.path c hc, Bool.true_or], ?_⟩
  cases e.rename with
  | none => simp [renameText]
  | some n =>
    exact List.forall_mem_cons.mpr ⟨rfl, List.forall_mem_append.mpr
      ⟨hname asWord, List.forall_mem_cons.mpr ⟨rfl, hname n⟩⟩⟩

theorem isListPart_of_mem (es : Entries) : ∀ c ∈ es.chars, isListPart c = true := by
  have hentry (e : Entry) : ∀ c ∈ e.chars, isListPart c = true := fun c hc => by
    rw [isListPart, isEntryPart_of_mem e c hc, Bool.true_or]
  rw [Entries.chars, List.forall_mem_append]
  refine ⟨hentry es.first, ?_⟩
  intro c hc
  obtain ⟨e, _, hc⟩ := List.mem_flatMap.mp hc
  exact List.forall_mem_append.mpr ⟨by simp [isListPart, isEntryPart], hentry e⟩ c hc

theorem isPrinted_of_mem (s : ImportStatement) : ∀ c ∈ s.chars, isPrinted c = true := by
  have hlist (es : Entries) : ∀ c ∈ es.chars, isPrinted c = true := fun c hc => by
    rw [isPrinted, isListPart_of_mem es c hc, Bool.true_or]
  have hspaced {dotted text : List Char} (hdotted : ∀ c ∈ dotted, isDottedPart c = true)
      (h : ∀ c ∈ text, isPrinted c = true) : ∀ c ∈ dotted ++ ' ' :: text, isPrinted c = true :=
    List.forall_mem_append.mpr
      ⟨fun c hc => isPrinted_of_isDottedPart (hdotted c hc), List.forall_mem_cons.mpr ⟨rfl, h⟩⟩
  have hword (n : Name) {text : List Char} (h : ∀ c ∈ text, isPrinted c = true) :
      ∀ c ∈ n.chars ++ ' ' :: text, isPrinted c = true :=
    hspaced (fun _ hc => isDottedPart_of_mem_name hc) h
  cases s with
  | plain entries => exact hword importWord (hlist entries)
  | listed module entries =>
    exact hword fromWord (hspaced (isDottedPart_of_mem_module module)
      (hword importWord (hlist entries)))
  | wildcard module =>
    exact hword fromWord (hspaced (isDottedPart_of_mem_module module)
      (hword importWord (List.forall_mem_singleton.mpr rfl)))

theorem toNat_of_isPrinted {c : Char} (h : isPrinted c = true) : c.toNat < 0x80 := by
  simp only [isPrinted, isListPart, isEntryPart, isDottedPart, Bool.or_eq_true, beq_iff_eq] at h
  rcases h with (((h | rfl) | rfl) | rfl) | rfl
  · exact toNat_of_isAsciiWord h
  all_goals decide

/-- No character of a statement ends a line. -/
theorem isLineBreak_of_isPrinted {c : Char} (h : isPrinted c = true) : isLineBreak c = false :=
  forall_ascii (P := fun c => isPrinted c = true → isLineBreak c = false) (by decide +kernel)
    (toNat_of_isPrinted h) h

theorem lineFeed_not_mem (s : ImportStatement) : '\n' ∉ s.chars := by
  intro h
  have := isLineBreak_of_isPrinted (isPrinted_of_mem s '\n' h)
  cases this

end SymbolAtlas.Python
