import SymbolAtlas.Config.Environment
import SymbolAtlas.Reader
import SymbolAtlas.Resolution
import SymbolAtlas.Usage

/-! # Workspaces

A workspace holds files by path, in the order in which the paths were first added, and perhaps a
configuration. Queries read the files anew and change nothing.
-/

namespace SymbolAtlas

/-- Files by path, and the configuration that replaces the default one. -/
structure Workspace where
  files : List (String × String)
  override : Option Config
  deriving Repr

inductive QueryFailure where
  | noSuchFile (path : String)
  deriving DecidableEq, Repr

def QueryFailure.message : QueryFailure → String
  | noSuchFile path => "no such file: " ++ path

namespace Workspace

def empty : Workspace := ⟨[], none⟩

def config (w : Workspace) : Config := w.override.getD Config.default

def paths (w : Workspace) : List String := w.files.map (·.1)

/-- Files with one added or, in its place, replaced. -/
def putFile (path content : String) : List (String × String) → List (String × String)
  | [] => [(path, content)]
  | f :: fs => if f.1 = path then (path, content) :: fs else f :: putFile path content fs

def put (w : Workspace) (path content : String) : Workspace :=
  { w with files := putFile path content w.files }

def remove (w : Workspace) (path : String) : Workspace :=
  { w with files := w.files.filter (·.1 != path) }

def holds (w : Workspace) (path : String) : Bool := w.files.any (·.1 == path)

def content (w : Workspace) (path : String) : Except QueryFailure String :=
  match w.files.find? (·.1 == path) with
  | some (_, content) => .ok content
  | none => .error (.noSuchFile path)

def outline (w : Workspace) (path : String) : Except QueryFailure (Outline × List Log.Entry) :=
  (w.content path).map fun content => Reader.read content (some path)

def resolve (w : Workspace) (module : String) (currentFile : Option String) :
    Option String × List Log.Entry :=
  Resolution.resolveModule w.config module w.paths currentFile

def resolveRelative (w : Workspace) (source currentFile : String) :
    Option String × List Log.Entry :=
  Resolution.resolveRelative w.config source currentFile w.paths

/-- An import of a file, and the file it resolves to. -/
structure Edge where
  path : String
  source : String
  resolved : Option String
  deriving DecidableEq, Repr

def fileEdges (w : Workspace) (path content : String) : List Edge × List Log.Entry :=
  let (outline, messages) := Reader.read content (some path)
  let resolved := outline.imports.map fun i => (i.source, w.resolve i.source (some path))
  (resolved.map fun (source, target, _) => ⟨path, source, target⟩,
    messages ++ resolved.flatMap fun (_, _, messages) => messages)

def graph (w : Workspace) : List Edge × List Log.Entry :=
  let perFile := w.files.map fun (path, content) => w.fileEdges path content
  (perFile.flatMap (·.1), perFile.flatMap (·.2))

def unused (w : Workspace) (path : String) : Except QueryFailure (List Import × List String) :=
  (w.outline path).map fun (o, _) => (o.unusedImports, o.unusedDeclarations w.config)

end Workspace

end SymbolAtlas
