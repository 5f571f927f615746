import SymbolAtlas.Value

/-! # Faults

Malformed source is never a fault: readers degrade. Faults are broken contracts of callers and
invalid configuration. Each has a report with a message, a code and a context.
-/

namespace SymbolAtlas

inductive Severity where
  | low
  | medium
  | high
  | critical
  deriving DecidableEq, Repr

namespace Severity

def name : Severity → String
  | low => "low"
  | medium => "medium"
  | high => "high"
  | critical => "critical"

def ofName? (s : String) : Option Severity := [low, medium, high, critical].find? (·.name == s)

end Severity

inductive ReportKind where
  | general
  | invalidInput
  | invalidConfig
  deriving DecidableEq, Repr

def ReportKind.name : ReportKind → String
  | general => "LensError"
  | invalidInput => "InvalidInputError"
  | invalidConfig => "ConfigError"

structure Report where
  kind : ReportKind
  message : String
  code : String
  context : Option Value
  severity : Severity
  isRecoverable : Bool
  deriving Repr

namespace Report

/-- A report of no special kind; by default it is of medium severity and recoverable. -/
def general (message code : String) (context : Option Value) (severity : Option Severity)
    (isRecoverable : Option Bool) : Report :=
  ⟨.general, message, code, context, severity.getD .medium, isRecoverable.getD true⟩

/-- A report on a caller that broke a contract. -/
def invalidInput (message : String) (context : Option Value) : Report :=
  ⟨.invalidInput, message, "INVALID_INPUT", context, .high, false⟩

def invalidConfig (message : String) (context : Option Value) : Report :=
  ⟨.invalidConfig, message, "CONFIG_INVALID", context, .medium, true⟩

end Report

inductive IssueCause where
  | wrongType (expected received : String)
  | emptyText
  | noLeadingDot
  | notBareName
  deriving DecidableEq, Repr

structure Issue where
  path : List String
  cause : IssueCause
  deriving DecidableEq, Repr

def IssueCause.message : IssueCause → String
  | wrongType expected received => "Expected " ++ expected ++ ", received " ++ received
  | emptyText => "String must contain at least 1 character(s)"
  | noLeadingDot => "extensions must start with a dot"
  | notBareName => "index files must be bare file names"

def Issue.text (i : Issue) : String :=
  (if i.path.isEmpty then "<root>" else ".".intercalate i.path) ++ ": " ++ i.cause.message

/-- Why a request cannot be answered. -/
inductive Fault where
  | contentNotText (received : String)
  | filenameNotText (received : String)
  | unsupportedLanguage (name : String)
  | invalidConfig (issues : List Issue)
  /-- An environment variable that holds a truth value holds something else. -/
  | invalidFlag (variableName value : String)
  deriving DecidableEq, Repr

def Fault.report : Fault → Report
  | contentNotText received =>
    .invalidInput "Source content must be a string" (some (.record [("received", .text received)]))
  | filenameNotText received =>
    .invalidInput "Filename must be a string when given"
      (some (.record [("received", .text received)]))
  | unsupportedLanguage name =>
    .general ("No language definition registered for: " ++ name) "UNSUPPORTED_LANGUAGE"
      (some (.record [("language", .text name)])) (some .high) (some false)
  | invalidConfig issues =>
    let lines := issues.map Issue.text
    .invalidConfig ("Invalid analysis config:\n  " ++ "\n  ".intercalate lines)
      (some (.record [("issues", .list (lines.map .text))]))
  | invalidFlag variableName value =>
    .invalidConfig
      ("Invalid " ++ variableName ++ " environment variable: \"" ++ value ++
        "\"\nValid values: 'true' or 'false'")
      (some (.record [("variable", .text variableName)]))

end SymbolAtlas
