import SymbolAtlas.Declaration
import SymbolAtlas.Token
import SymbolAtlas.Token.Vocabulary

/-! # References in a token list

An identifier is a reference unless it stands in an import clause, right after a declaring word or
after a member access, is built in, or is a contextual word that acts as a keyword. The
interpolations of a template literal follow the same rules on their own.
-/

namespace SymbolAtlas.Script

def declaringWords : List String :=
  ["const", "let", "var", "function", "class", "interface", "type", "enum", "as", "from"]

def isDeclaring (t : Token) : Bool := t.isWord && declaringWords.contains t.text

def isMemberAccess (t : Token) : Bool := t.isMark "." || t.isMark "?."

/-- Whether a contextual word acts as a keyword: on its line, a name, a string, an opening brace
or a star follows. -/
def actsAsKeyword (t : Token) (next : Option Token) : Bool :=
  Vocabulary.isContextual t.text &&
    next.any fun n =>
      n.line == t.line &&
        (n.isWord || n.hasKind .string || n.isMark "\x7b" || n.isOperator "*")

def isReference (previous : Option Token) (t : Token) (next : Option Token) : Bool :=
  t.hasKind .identifier && !Vocabulary.isBuiltin t.text && !previous.any isDeclaring &&
    !actsAsKeyword t next && !previous.any isMemberAccess

/-- Whether an `import` keyword begins a clause, rather than a call or a member access. -/
def opensClause (next : Option Token) : Bool :=
  !next.any fun n => n.isMark "(" || n.isMark "."

/-- The references of a token list after the token `previous`; `inClause` says that an import
clause is open. -/
def referencesFrom (previous : Option Token) (inClause : Bool) : List Token → List Reference
  | [] => []
  | .template p s inner :: ts =>
    let own := if inClause then [] else referencesFrom none false inner
    own ++ referencesFrom (some (.template p s inner)) inClause ts
  | .plain k p s :: ts =>
    let t := Token.plain k p s
    if t.is .keyword "import" then
      referencesFrom (some t) (inClause || opensClause ts.head?) ts
    else if inClause then
      referencesFrom (some t) (!(t.hasKind .string || t.isMark ";")) ts
    else
      let own := if isReference previous t ts.head? then [⟨s, p⟩] else []
      own ++ referencesFrom (some t) false ts

def references (tokens : List Token) : List Reference := referencesFrom none false tokens

end SymbolAtlas.Script
