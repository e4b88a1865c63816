import BraceLang.Files.Path
import BraceLang.Text.Quoted

/-!
# Trees of files

A tree of files as a value: a list of resolved places, each a file with its text or a directory. The top of the tree
is always a directory.
-/

namespace BraceLang

inductive FileEntry where
  | file (text : String)
  | directory
  deriving DecidableEq, Repr

/-- A tree of files, and the directory that relative paths start in. -/
structure FileTree where
  cwd : Path
  entries : List (List String × FileEntry) := []

inductive FileError where
  | noSuchFile (path : Path)
  | fileExists (path : Path)
  | notDirectory (path : Path)
  | isDirectory (path : Path)
  deriving DecidableEq, Repr

def FileError.message : FileError → String
  | noSuchFile p => "[Errno 2] No such file or directory: " ++ quoted p.text
  | fileExists p => "[Errno 17] File exists: " ++ quoted p.text
  | notDirectory p => "[Errno 20] Not a directory: " ++ quoted p.text
  | isDirectory p => "[Errno 21] Is a directory: " ++ quoted p.text

namespace FileTree

def entry? (t : FileTree) (place : List String) : Option FileEntry :=
  if place.isEmpty then some .directory else t.entries.lookup place

/-- The place that parts lead to, one after the other, from another place.  What a part is looked up in has to be a
directory; if it is not, the error speaks of the whole path `p`. -/
def follow (t : FileTree) (p : Path) : List String → List String → Except FileError (List String)
  | here, [] => .ok here
  | here, part :: parts =>
    match t.entry? here with
    | some .directory => t.follow p (if part = ".." then here.dropLast else here ++ [part]) parts
    | some (.file _) => .error (.notDirectory p)
    | none => .error (.noSuchFile p)

def resolve (t : FileTree) (p : Path) : Path := p.resolve t.cwd

/-- The place that a path leads to.  A path with the anchor of another tree leads nowhere. -/
def place (t : FileTree) (p : Path) : Except FileError (List String) :=
  if p.anchor.isNone then t.follow p [] (t.cwd.parts ++ p.parts)
  else if p.anchor = t.cwd.anchor then t.follow p [] p.parts
  else .error (.noSuchFile p)

def find? (t : FileTree) (p : Path) : Option FileEntry :=
  match t.place p with
  | .ok here => t.entry? here
  | .error _ => none

def contains (t : FileTree) (p : Path) : Bool := (t.find? p).isSome

def isFile (t : FileTree) (p : Path) : Bool :=
  match t.find? p with
  | some (.file _) => true
  | _ => false

def isDirectory (t : FileTree) (p : Path) : Bool := t.find? p = some .directory

/-- Whether a text leads to anything if it is taken for a path.  An empty text does not, and a text with a slash at its
end only leads to directories. -/
def containsText (t : FileTree) (text : String) : Bool :=
  if text.endsWith "/" || text.endsWith "/." then t.isDirectory (.ofText text)
  else !text.isEmpty && t.contains (.ofText text)

def plainLines : List Char → List Char
  | '\r' :: '\n' :: cs => '\n' :: plainLines cs
  | '\r' :: cs => '\n' :: plainLines cs
  | c :: cs => c :: plainLines cs
  | [] => []

def read? (t : FileTree) (p : Path) : Option String :=
  match t.find? p with
  | some (.file text) => some (String.ofList (plainLines text.toList))
  | _ => none

def putEntry (t : FileTree) (place : List String) (e : FileEntry) : FileTree :=
  { t with entries := t.entries.filter (·.1 ≠ place) ++ [(place, e)] }

def write (t : FileTree) (p : Path) (text : String) : Except FileError FileTree := do
  let here ← t.place p
  match t.entry? here with
  | some .directory => .error (.isDirectory p)
  | _ => return t.putEntry here (.file text)

def makeDirectory (t : FileTree) (p : Path) : Except FileError FileTree := do
  let here ← t.place p
  match t.entry? here with
  | some .directory => return t
  | some (.file _) => .error (.fileExists p)
  | none => return t.putEntry here .directory

def removeAll (t : FileTree) (p : Path) : FileTree :=
  match t.place p with
  | .ok here => { t with entries := t.entries.filter fun e => !here.isPrefixOf e.1 }
  | .error _ => t

/-- The tree without the file at a path, if there is one.  A directory is not removed this way. -/
def removeFile (t : FileTree) (p : Path) : Except FileError FileTree :=
  match t.find? p with
  | some (.file _) => .ok (t.removeAll p)
  | some .directory => .error (.isDirectory p)
  | none => .ok t

def addDirectory (t : FileTree) (place : List String) : FileTree :=
  (List.range place.length).foldl (fun t n =>
    let above := place.take (n + 1)
    if (t.entry? above).isSome then t else t.putEntry above .directory) t

def addFile (t : FileTree) (place : List String) (text : String) : FileTree :=
  (t.addDirectory place.dropLast).putEntry place (.file text)

def changesSince (t before : FileTree) : List (List String × String) :=
  t.entries.filterMap fun (place, e) =>
    match e with
    | .file text => if before.entry? place = some e then none else some (place, text)
    | .directory => none

end FileTree

end BraceLang
