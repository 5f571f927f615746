import SymbolAtlas.Text.Blank
import SymbolAtlas.Path

/-! # Languages

The languages that can be read, the file extensions that belong to each, and the evidence for each
that a text holds.
-/

namespace SymbolAtlas

inductive Language where
  | python
  | javascript
  | typescript
  deriving DecidableEq, Repr

namespace Language

/-- Every language; the earlier one wins when the evidence is equal. -/
def all : List Language := [python, javascript, typescript]

def id : Language → String
  | python => "python"
  | javascript => "javascript"
  | typescript => "typescript"

def ofId? (name : String) : Option Language := all.find? (·.id == name)

def extensions : Language → List String
  | python => ["py", "pyi"]
  | javascript => ["js", "jsx", "mjs", "cjs"]
  | typescript => ["ts", "tsx", "mts", "cts"]

/-- The language of a file extension, without its dot, in small letters. -/
def ofExtension? (extension : String) : Option Language :=
  all.find? (·.extensions.contains extension)

/-- The language that a path's extension claims, whatever its letter case. -/
def ofPath? (path : String) : Option Language :=
  ofExtension? (String.ofList (lowercase ((Path.extension path.toList).drop 1)))

private def points (n : Nat) (shown : Bool) : Nat := if shown then n else 0

def pythonEvidence (text : List Char) : Nat :=
  let has := mentions text
  points 2 (has "def ") + points 2 (has "class " && has ":") +
    points 2 (has "import " || has "from ") + points 1 (has ":" && has "#") +
    points 1 (has "self.")

def javascriptEvidence (text : List Char) : Nat :=
  let has := mentions text
  points 2 (has "function " || has "=>") + points 2 (has "const " || has "let " || has "var ") +
    points 2 (has "require(") + points 1 (has "\x7b" && has "\x7d")

/-- The weight of the evidence that a text is in TypeScript: types, and whatever counts for
JavaScript. -/
def typescriptEvidence (text : List Char) : Nat :=
  let has := mentions text
  javascriptEvidence text + points 3 (has ": string" || has ": number" || has ": boolean") +
    points 3 (has "interface ") + points 2 (has "type " && has "=")

/-- TypeScript is ahead of JavaScript exactly in a text with a typical annotation, an interface or
a type alias. -/
theorem javascriptEvidence_lt_typescriptEvidence_iff (text : List Char) :
    javascriptEvidence text < typescriptEvidence text ↔
      mentions text ": string" = true ∨ mentions text ": number" = true ∨
        mentions text ": boolean" = true ∨ mentions text "interface " = true ∨
        mentions text "type " = true ∧ mentions text "=" = true := by
  have hpoints (n : Nat) (shown : Bool) : 0 < points (n + 1) shown ↔ shown = true := by
    cases shown <;> simp [points]
  have hsum : javascriptEvidence text < typescriptEvidence text ↔
      0 < points 3 (mentions text ": string" || mentions text ": number" ||
          mentions text ": boolean") ∨
        0 < points 3 (mentions text "interface ") ∨
        0 < points 2 (mentions text "type " && mentions text "=") := by
    simp only [typescriptEvidence]
    omega
  rw [hsum, hpoints, hpoints, hpoints]
  simp only [Bool.or_eq_true, Bool.and_eq_true, or_assoc]

/-- The weight of the evidence for a language in a text. -/
def evidence : Language → String → Nat
  | python, text => pythonEvidence text.toList
  | javascript, text => javascriptEvidence text.toList
  | typescript, text => typescriptEvidence text.toList

/-- The language with the most evidence, the earliest among equals; none without evidence. -/
def ofEvidence? (text : String) : Option Language :=
  (all.foldl
    (fun (best, weight) l => if weight < l.evidence text then (some l, l.evidence text)
      else (best, weight))
    (none, 0)).1

/-- The language of a source. A known file extension decides; otherwise the evidence does. -/
def detect? (content : String) (filename : Option String) : Option Language :=
  match filename.bind ofPath? with
  | some l => some l
  | none => ofEvidence? content

def tag : Option Language → String
  | some l => l.id
  | none => "unknown"

end Language

end SymbolAtlas
