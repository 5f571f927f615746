import SymbolAtlas.Fault
import SymbolAtlas.Python.Outline
import SymbolAtlas.Script.Outline

/-! # Reading sources

A source is given to the reader of its language: the one that its file extension claims, or else
the one with the most evidence in the text. A source that no language claims has an empty outline.
-/

namespace SymbolAtlas.Reader

def checkSource (content filename : Option Value) : Except Fault (String × Option String) :=
  match content with
  | some (.text content) =>
    match filename with
    | none => .ok (content, none)
    | some (.text filename) => .ok (content, some filename)
    | some v => .error (.filenameNotText (Value.argumentType (some v)))
  | v => .error (.contentNotText (Value.argumentType v))

def languageNamed (name : String) : Except Fault Language :=
  match Language.ofId? name with
  | some l => .ok l
  | none => .error (.unsupportedLanguage name)

def readAs (language : Language) (content : String) (filename : Option String) :
    Outline × List Log.Entry :=
  match language with
  | .python => Python.outline content filename
  | .javascript | .typescript => (Script.outline content filename, [])

/-- Read a source in whatever language it is. The first message tells which reader is chosen. -/
def read (content : String) (filename : Option String) : Outline × List Log.Entry :=
  let language := Language.detect? content filename
  let chosen : Log.Entry :=
    ⟨.debug, filename.getD "<source>" ++ ": parsing as " ++ Language.tag language⟩
  match language with
  | none => (.unknown content, [chosen])
  | some l =>
    let (outline, messages) := readAs l content filename
    (outline, chosen :: messages)

end SymbolAtlas.Reader
