/-! # The words of C-family source

Reserved words can never name a binding. Contextual words act as keywords only in certain
positions and are ordinary names elsewhere. Built-in names are types and globals of the platform:
never declarations of a file, and never counted as references to one.
-/

namespace SymbolAtlas.Vocabulary

/-- Words that are always scanned as keywords. -/
def reserved : List String :=
  ["break", "case", "catch", "class", "const", "continue", "debugger", "default", "delete", "do",
    "else", "export", "extends", "finally", "for", "function", "if", "import", "in",
    "instanceof", "new", "return", "super", "switch", "this", "throw", "try", "typeof", "var",
    "void", "while", "with", "yield", "let", "static", "enum", "await", "implements", "package",
    "protected", "interface", "private", "public", "true", "false"]

/-- Words that are scanned as identifiers and read as keywords by their position. -/
def contextual : List String :=
  ["abstract", "readonly", "as", "from", "type", "namespace", "declare", "module", "get", "set",
    "async"]

/-- Types and globals that every file sees. -/
def builtin : List String :=
  ["string", "number", "boolean", "symbol", "bigint", "undefined", "null", "object", "any",
    "unknown", "never", "void", "Array", "Record", "Partial", "Required", "Readonly", "Pick",
    "Omit", "Exclude", "Extract", "NonNullable", "Parameters", "ReturnType", "InstanceType",
    "ThisParameterType", "OmitThisParameter", "ThisType", "Uppercase", "Lowercase", "Capitalize",
    "Uncapitalize", "Promise", "Map", "Set", "WeakMap", "WeakSet", "Date", "RegExp", "Error",
    "Function", "String", "Number", "Boolean", "Object", "Symbol", "BigInt", "console", "window",
    "document", "globalThis", "process", "Buffer", "Math", "JSON"]

def isReserved (word : String) : Bool := reserved.contains word

def isContextual (word : String) : Bool := contextual.contains word

def isBuiltin (word : String) : Bool := builtin.contains word

end SymbolAtlas.Vocabulary
