import SymbolAtlas.Config
import SymbolAtlas.Import
import SymbolAtlas.Log
import SymbolAtlas.Path

/-! # Resolving imports to known files

A relative module name is looked up from the directory of the importing file; any other name is
sought at the end of the known paths, whole segments at a time. The answer is a known path exactly
as it is given, the first one where several fit equally well.
-/

namespace SymbolAtlas.Resolution

def withForm (form : List Char → List Char) (path : String) : String × List Char :=
  (path, form path.toList)

def firstWhere (known : List (String × List Char)) (test : List Char → Bool) :
    Option String :=
  (known.find? fun (_, form) => test form).map (·.1)

/-- The path that a relative module name denotes, seen from a file. -/
def target (source currentFile : String) : List Char :=
  Path.join (Path.directory currentFile.toList) (Path.ofSpecifier source.toList)

/-- The forms that a target may take on disk: with each extension, then as a directory with each
index file. -/
def candidates (config : Config) (target : List Char) : List (List Char) :=
  config.extensions.map (target ++ ·.toList) ++
    config.indexFiles.map fun file => Path.join target file.toList

/-- The known path that a relative module name denotes, without a message. First comes a path
equal to the target, or equal to it without its last extension and the target's configured one;
then the target's candidates in their order. -/
def relative? (config : Config) (source currentFile : String) (paths : List String) :
    Option String :=
  let target := target source currentFile
  let stem := Path.withoutEnding (config.extensions.map String.toList) target
  let known := paths.map (withForm Path.normalize)
  (firstWhere known fun p => p == target || Path.withoutExtension p == stem).or
    ((candidates config target).findSome? fun candidate => firstWhere known (· == candidate))

def resolveRelative (config : Config) (source currentFile : String) (paths : List String) :
    Option String × List Log.Entry :=
  if isRelative source then
    match relative? config source currentFile paths with
    | some path => (some path, [])
    | none =>
      (none, [⟨.debug, "Could not resolve \"" ++ source ++ "\" from " ++ currentFile⟩])
  else (none, [])

def isIndexOf (config : Config) (modulePath stem : List Char) : Bool :=
  config.indexFiles.any fun file =>
    let index := Path.withoutEnding (config.extensions.map String.toList) file.toList
    Path.endsWith stem ('/' :: index) &&
      Path.endsAtSegment (stem.take (stem.length - (index.length + 1))) modulePath

/-- The known path that a bare module name denotes, without a message: one whose stem ends with
the module's path, or else an index file of a directory that does. -/
def bare? (config : Config) (modulePath : List Char) (paths : List String) : Option String :=
  let extensions := config.extensions.map String.toList
  let known := paths.map (withForm fun p => Path.withoutEnding extensions (Path.normalize p))
  (firstWhere known (Path.endsAtSegment · modulePath)).or
    (firstWhere known (isIndexOf config modulePath))

/-- The known path that a module name denotes, with a message when it is sought and not found. A
relative name needs a current file; an empty file name counts as none. -/
def resolveModule (config : Config) (module : String) (paths : List String)
    (currentFile : Option String) : Option String × List Log.Entry :=
  if isRelative module then
    match currentFile.filter (!·.isEmpty) with
    | some file => resolveRelative config module file paths
    | none => (none, [])
  else
    let modulePath := Path.ofModule module.toList
    if modulePath.isEmpty then (none, [])
    else
      match bare? config modulePath paths with
      | some path => (some path, [])
      | none => (none, [⟨.debug, "Could not resolve module \"" ++ module ++ "\""⟩])

end SymbolAtlas.Resolution
