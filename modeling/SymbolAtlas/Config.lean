import SymbolAtlas.Fault
import SymbolAtlas.Text.Identifier

/-! # Configuration

A configuration is read from an untyped value: entries that are absent take their defaults,
unknown ones are ignored, and every refused entry is an issue. Issues stand in the order of the
configuration's own entries, whatever the order in the value.
-/

namespace SymbolAtlas

/-- How imports are resolved, and which unused names are reported. -/
structure Config where
  /-- File extensions tried, in order, when a relative import has none. -/
  extensions : List String
  /-- Entry points of a directory, tried in order after the extensions. -/
  indexFiles : List String
  /-- Whether unused names that other files can see are reported too. -/
  includeExported : Bool
  deriving DecidableEq, Repr

namespace Config

def default : Config where
  extensions := [".py", ".js", ".ts", ".jsx", ".tsx", ".mjs", ".cjs"]
  indexFiles := ["index.js", "index.ts", "index.tsx", "__init__.py"]
  includeExported := true

def isExtensionPart (c : Char) : Bool :=
  Identifier.isAsciiWord c || c == '.' || c == '+' || c == '-'

def isExtension (s : String) : Bool :=
  match s.toList with
  | '.' :: rest => !rest.isEmpty && rest.all isExtensionPart
  | _ => false

def extensionIssue? : Value → Option IssueCause
  | .text s => if isExtension s then none else some .noLeadingDot
  | v => some (.wrongType "string" v.typeName)

def indexFileIssue? : Value → Option IssueCause
  | .text s =>
    if s.isEmpty then some .emptyText
    else if s.toList.contains '/' then some .notBareName
    else none
  | v => some (.wrongType "string" v.typeName)

/-- The issues of a list's items, each checked by `check`; the first has the index `n`. -/
def itemIssues (path : List String) (check : Value → Option IssueCause) (n : Nat) :
    List Value → List Issue
  | [] => []
  | v :: vs =>
    ((check v).map fun cause => ⟨path ++ [toString n], cause⟩).toList ++
      itemIssues path check (n + 1) vs

def listIssues (path : List String) (check : Value → Option IssueCause) :
    Option Value → List Issue
  | none => []
  | some (.list items) => itemIssues path check 0 items
  | some v => [⟨path, .wrongType "array" v.typeName⟩]

def sectionIssues (path : List String) (check : Value → List Issue) : Option Value → List Issue
  | none => []
  | some (.record fields) => check (.record fields)
  | some v => [⟨path, .wrongType "object" v.typeName⟩]

def resolutionIssues (v : Value) : List Issue :=
  listIssues ["resolution", "extensions"] extensionIssue? (v.field? "extensions") ++
    listIssues ["resolution", "indexFiles"] indexFileIssue? (v.field? "indexFiles")

def unusedIssues (v : Value) : List Issue :=
  match v.field? "includeExported" with
  | none | some (.bool _) => []
  | some w => [⟨["unused", "includeExported"], .wrongType "boolean" w.typeName⟩]

def issues (overrides : Option Value) : List Issue :=
  sectionIssues []
    (fun v =>
      sectionIssues ["resolution"] resolutionIssues (v.field? "resolution") ++
        sectionIssues ["unused"] unusedIssues (v.field? "unused"))
    overrides

def textItems : Value → List String
  | .list items => items.filterMap fun | .text s => some s | _ => none
  | _ => []

def entryAt (overrides : Option Value) (group name : String) : Option Value :=
  (overrides.bind (Value.field? group)).bind (Value.field? name)

/-- The configuration that overrides give, defaults filled in; faulty entries are passed over. -/
def fill (overrides : Option Value) : Config where
  extensions :=
    ((entryAt overrides "resolution" "extensions").map textItems).getD default.extensions
  indexFiles :=
    ((entryAt overrides "resolution" "indexFiles").map textItems).getD default.indexFiles
  includeExported :=
    match entryAt overrides "unused" "includeExported" with
    | some (.bool b) => b
    | _ => default.includeExported

def ofValue (overrides : Option Value) : Except Fault Config :=
  match issues overrides with
  | [] => .ok (fill overrides)
  | found => .error (.invalidConfig found)

def toValue (c : Config) : Value :=
  .record
    [("resolution", .record
      [("extensions", .list (c.extensions.map .text)),
        ("indexFiles", .list (c.indexFiles.map .text))]),
      ("unused", .record [("includeExported", .bool c.includeExported)])]

end Config

end SymbolAtlas
