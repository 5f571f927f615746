/-! # Log messages -/

namespace SymbolAtlas.Log

inductive Level where
  | debug
  | info
  | warning
  | error
  deriving DecidableEq, Repr

def Level.name : Level → String
  | debug => "debug"
  | info => "info"
  | warning => "warning"
  | error => "error"

def Level.channel : Level → String
  | debug => "debug"
  | info => "log"
  | warning => "warn"
  | error => "error"

def Level.ofName? (name : String) : Option Level :=
  [debug, info, warning, error].find? (·.name == name)

structure Entry where
  level : Level
  message : String
  deriving DecidableEq, Repr

def Entry.console (e : Entry) : String × String :=
  (e.level.channel, "[" ++ e.level.name ++ "] " ++ e.message)

end SymbolAtlas.Log
