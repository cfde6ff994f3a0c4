import Foxing.Worker
import Foxing.Lib.Glob
import Mathlib.Data.List.DropRight

/-!
# Excluded paths

A target is configured with patterns for the paths that it leaves out and for those
that it is restricted to. Loading the configuration adds the names of the daemon's
own files and, for a target inside its source, the path of the target itself, as it
is written. A path that is written with empty pieces or dots between its slashes is
the same path, but another text.
-/
namespace Foxing

/-- A path as a text. -/
def pathText (p : Path) : String := "/".intercalate p

/-- The path relative to a directory that it lies in. -/
def stripBase (base p : Path) : Option Path :=
  if base <+: p then some (p.drop base.length) else none

/-! ## Paths as they are written -/

/-- Pieces between slashes that are empty, or a dot, are no components. -/
def isComponent (piece : String) : Bool := piece ≠ "" && piece ≠ "."

/-- The pieces from the first component to the last one. -/
def trimPieces (pieces : List String) : List String :=
  (pieces.dropWhile fun c => !isComponent c).rdropWhile fun c => !isComponent c

/-- What is left of a path, as it is written, behind the components of a directory. -/
def stripPrefix : Path → List String → Option (List String)
  | [], pieces => some (trimPieces pieces)
  | c :: base, pieces =>
    match pieces.dropWhile fun piece => !isComponent piece with
    | piece :: rest => if piece = c then stripPrefix base rest else none
    | [] => none

/-- The place on disk of an absolute path. -/
def placeOf (pieces : List String) : Path :=
  pieces.foldl
    (fun p c => if c = ".." then p.dropLast else if isComponent c then p ++ [c] else p) []

/-- The configuration of a target as it is written. -/
structure TargetSpec where
  /-- The pieces between the slashes of its absolute path. -/
  path : List String
  includes : List String
  excludes : List String

namespace TargetSpec

/-- Where the target is. -/
def dir (spec : TargetSpec) : Path := placeOf spec.path

def internalExcludes : List String :=
  [".foxing_reflink_probe*", ".foxing_latency_probe*", ".foxing_mount_epoch",
    ".foxing_mount_probe", "*.tmp.*", "*.swap_tmp"]

def addExclude (excludes : List String) (p : String) : List String :=
  if p ∈ excludes then excludes else excludes ++ [p]

/-- A target inside its source excludes itself, by the text that is left of its path. The source is
given by the components of its path. -/
def nestedExcludes (source : Path) (spec : TargetSpec) : List String :=
  match stripPrefix source spec.path with
  | some rel => if pathText rel ≠ "" then addExclude spec.excludes (pathText rel) else spec.excludes
  | none => spec.excludes

/-- A pattern is searched for anywhere in a text. -/
def compileFilter (pattern text : String) : Bool :=
  Glob.isMatch (Glob.ofText pattern.toList) text.toList

def load (source : Path) (spec : TargetSpec) : TargetConfig where
  includeRegexes := spec.includes.map compileFilter
  excludeRegexes :=
    (internalExcludes.foldl addExclude (spec.nestedExcludes source)).map compileFilter

end TargetSpec

/-! ## A target inside its source -/

end Foxing
