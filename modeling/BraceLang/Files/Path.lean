/-!
# Paths

A path goes down from an anchor, the top of a tree of files, or from the working directory.
-/

namespace BraceLang

structure Path where
  /-- The name of the top of the tree, unless the path starts in the working directory. -/
  anchor : Option String
  parts : List String
  deriving DecidableEq, Repr, Inhabited

namespace Path

def partsOf (text : String) : List String :=
  ((text.toList.splitOn '/').map String.ofList).filter fun p => p ≠ "" && p ≠ "."

def relative (text : String) : Path := ⟨none, partsOf text⟩

def ofText (text : String) : Path := ⟨if text.startsWith "/" then some "" else none, partsOf text⟩

def text (p : Path) : String :=
  match p.anchor with
  | none => if p.parts.isEmpty then "." else String.intercalate "/" p.parts
  | some anchor => if anchor.isEmpty && p.parts.isEmpty then "/" else String.intercalate "/" (anchor :: p.parts)

def join (p : Path) (text : String) : Path := { p with parts := p.parts ++ partsOf text }

def parent (p : Path) : Path := { p with parts := p.parts.dropLast }

def name (p : Path) : String := p.parts.getLast?.getD ""

/-- Where the suffix of a name starts: at its last point, unless that is its first or last character. -/
def suffixStart (name : List Char) : Nat :=
  let after := (name.reverse.takeWhile (· ≠ '.')).length
  if after + 1 < name.length && 0 < after then name.length - after - 1 else name.length

def dropSuffix (name : String) : String := String.ofList (name.toList.take (suffixStart name.toList))

def stem (p : Path) : String := dropSuffix p.name

def withSuffix (p : Path) (suffix : String) : Path :=
  { p with parts := p.parts.dropLast ++ [dropSuffix p.name ++ suffix] }

def collapse (parts : List String) : List String :=
  parts.foldl (fun up p => if p = ".." then up.dropLast else up ++ [p]) []

/-- The path from the top of the tree, for a working directory, without steps up. -/
def resolve (p cwd : Path) : Path :=
  match p.anchor with
  | some _ => { p with parts := collapse p.parts }
  | none => { cwd with parts := collapse (cwd.parts ++ p.parts) }

end Path

end BraceLang
