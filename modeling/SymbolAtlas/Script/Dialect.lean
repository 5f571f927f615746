import SymbolAtlas.Language
import SymbolAtlas.Text.Identifier

/-! # Which dialect a script is written in

A known file extension decides. Otherwise a script counts as TypeScript when its text shows a
marker of types: a typical phrase, or type arguments such as `Map<string, Item[]>`.
-/

namespace SymbolAtlas.Script

open Identifier

def typedPhrases : List String := ["interface ", ": string", ": number", "enum ", "declare "]

private def isTypeStart (c : Char) : Bool := isAsciiWordStart c || c == '$'

/-- The text after a type's name, a pair of brackets after it included. -/
private def afterType : List Char → Option (List Char)
  | [] => none
  | c :: cs =>
    if isTypeStart c then
      match cs.dropWhile fun c => isAsciiWord c || c == '$' || c == '.' with
      | '[' :: ']' :: rest => some rest
      | rest => some rest
    else none

/-- Whether a list of types and its closing angle bracket stand at the head of a text. The first
argument bounds the number of types. -/
private def closesTypeList : Nat → List Char → Bool
  | 0, _ => false
  | steps + 1, cs =>
    match afterType cs with
    | none => false
    | some ('>' :: _) => true
    | some rest =>
      match rest.dropWhile isBlank with
      | ',' :: rest => closesTypeList steps (rest.dropWhile isBlank)
      | _ => false

private def opensGeneric (c : Char) (cs : List Char) : Bool :=
  isTypeStart c &&
    match cs.dropWhile fun c => isAsciiWord c || c == '$' with
    | '<' :: rest => closesTypeList (rest.length + 1) rest
    | _ => false

def holdsGenericFrom (previous : Option Char) : List Char → Bool
  | [] => false
  | c :: cs =>
    let atBoundary := previous.any isAsciiWord != isAsciiWord c
    (atBoundary && opensGeneric c cs) || holdsGenericFrom (some c) cs

def showsTypes (text : List Char) : Bool :=
  typedPhrases.any (mentions text) || holdsGenericFrom none text

def dialectOfPath? (path : String) : Option Language :=
  (Language.ofPath? path).filter (· != .python)

def dialect (content : String) (filename : Option String) : Language :=
  match filename.bind dialectOfPath? with
  | some l => l
  | none => if showsTypes content.toList then .typescript else .javascript

end SymbolAtlas.Script
