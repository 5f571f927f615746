import SymbolAtlas.Text.Blank
import SymbolAtlas.Text.Position

/-! # Slash-separated paths

A path is read as segments between slashes. Its normal form has no empty segment and no `.`, and
has `..` only at the head of a relative path. Backslashes count as slashes wherever paths are
compared.
-/

namespace SymbolAtlas.Path

def withSlashes (path : List Char) : List Char := path.map fun c => if c = '\\' then '/' else c

/-- The segments of a path, empty ones included. -/
def segments (path : List Char) : List (List Char) := splitAt '/' path

def isAbsolute (path : List Char) : Bool := path.head? == some '/'

/-- Resolve one more segment; `done` holds the segments so far, last first. A `..` undoes the
segment before it; without one it is kept, except at the root. -/
def resolveSegment (atRoot : Bool) (done : List (List Char)) (segment : List Char) :
    List (List Char) :=
  if segment = [] || segment = ['.'] then done
  else if segment = ['.', '.'] then
    match done with
    | [] => if atRoot then [] else [segment]
    | last :: before => if last = ['.', '.'] then segment :: done else before
  else segment :: done

def resolvedSegments (path : List Char) : List (List Char) :=
  ((segments path).foldl (resolveSegment (isAbsolute path)) []).reverse

/-- A path with its segments resolved. A final slash stays, and an empty relative path is `.`. -/
def resolve (path : List Char) : List Char :=
  let body := joinWith ['/'] (resolvedSegments path)
  let root := if isAbsolute path then ['/'] else []
  let final := if path.getLast? = some '/' then ['/'] else []
  if body.isEmpty then
    if isAbsolute path then ['/'] else if final.isEmpty then ['.'] else ['.', '/']
  else root ++ body ++ final

/-- A path without its final slash, unless nothing or a line break stands before it. -/
def withoutFinalSlash (path : List Char) : List Char :=
  match path.reverse with
  | '/' :: c :: before => if isLineBreak c then path else (c :: before).reverse
  | _ => path

def normalize (path : List Char) : List Char :=
  let resolved := resolve (withSlashes path)
  if resolved = ['.', '/'] then ['.'] else withoutFinalSlash resolved

def join (directory path : List Char) : List Char :=
  let parts := [withSlashes directory, path].filter (!·.isEmpty)
  normalize (if parts.isEmpty then ['.'] else resolve (joinWith ['/'] parts))

/-- The directory of a path: what stands before the slash that precedes its last segment. -/
def directory (path : List Char) : List Char :=
  let path := withSlashes path
  let withoutName := ((path.reverse.dropWhile (· == '/')).dropWhile (· != '/'))
  match withoutName with
  | [] => if isAbsolute path then ['/'] else ['.']
  | ['/'] => ['/']
  | ['/', '/'] => ['/', '/']
  | _ :: before => before.reverse

/-- The extension of a path, with its dot: what follows the last dot of its last segment. A
segment that only begins with that dot has none, and neither has `..`. -/
def extension (path : List Char) : List Char :=
  let name := ((path.reverse.dropWhile (· == '/')).takeWhile (· != '/'))
  let tail := name.takeWhile (· != '.')
  match name.drop tail.length with
  | [] => []
  | ['.'] => []
  | _ :: before => if tail.isEmpty && before = ['.'] then [] else '.' :: tail.reverse

/-- A path without as many UTF-16 units at its end as its extension has. -/
def withoutExtension (path : List Char) : List Char :=
  (dropUnits (utf16Length (extension path)) path.reverse).reverse

def withoutEnding (endings : List (List Char)) : List Char → List Char
  | [] => []
  | c :: cs => if endings.contains (c :: cs) then [] else c :: withoutEnding endings cs

def endsWith (text ending : List Char) : Bool := ending.isSuffixOf text

/-- Whether a path is `ending` or ends with it after a slash. -/
def endsAtSegment (path ending : List Char) : Bool :=
  path = ending || endsWith path ('/' :: ending)

def ofModule (module : List Char) : List Char := module.map fun c => if c = '.' then '/' else c

/-- The slash path of a dotted relative module name: one dot is the directory itself, and each
further dot is one level up. A name with a slash or a line break is a path already. -/
def ofSpecifier (specifier : List Char) : List Char :=
  let dots := specifier.takeWhile (· == '.')
  let rest := specifier.drop dots.length
  if specifier.contains '/' || rest.any isLineBreak then specifier
  else
    match dots.length with
    | 0 => specifier
    | 1 => ['.', '/'] ++ ofModule rest
    | level + 2 => (List.replicate (level + 1) ['.', '.', '/']).flatten ++ ofModule rest

end SymbolAtlas.Path
