import MayAlias.FinMap
import MayAlias.Host

/-!
# File trees

Files in memory, reached by paths from a working directory.  A path is walked name by name; what it
leads through has to be a directory.  Directories are the working directory and those above it, the
root with the few that every machine has, and every place with a file below it.

Two questions are asked of a path: `source`, what can be read there, and `target`, where writing
puts a file.  They differ behind a slash at the end of a path: there, something to be read may turn
out to be no directory, while nothing can be created at all.
-/

namespace MayAlias

/-! ## Paths -/

/-- A path by its parts. -/
structure Path where
  /-- Does it start at the root? -/
  absolute : Bool
  /-- The names between the slashes. -/
  names : List String
  /-- Does it end in a slash? -/
  closed : Bool

namespace Path

/-- The pieces of a text between its slashes, empty ones too. -/
def segments : List Char → List (List Char)
  | [] => [[]]
  | c :: cs =>
    if c = '/' then [] :: segments cs
    else match segments cs with
      | [] => [[c]]
      | s :: rest => (c :: s) :: rest

/-- The longest name and the longest path, in bytes. -/
def longestName : Nat := 255

@[inherit_doc longestName]
def longestPath : Nat := 4095

/-- The path that a text writes. -/
def ofText (text : String) : Except FileFault Path :=
  let cs := text.toList
  if cs.isEmpty then .error .notFound
  else if cs.contains '\x00' then .error .nulInName
  else if longestPath < text.utf8ByteSize then .error .nameTooLong
  else
    .ok
      { absolute := cs.head? = some '/'
        names := ((segments cs).filter fun s => !s.isEmpty).map String.ofList
        closed := cs.getLast? = some '/' }

end Path

/-! ## Places -/

/-- Where the names of a place start. -/
inductive Origin where
  | root
  /-- The working directory, or the directory so many levels above it. -/
  | above (levels : Nat)
deriving DecidableEq

/-- A place in a tree: names that lead down from an origin. -/
structure Place where
  origin : Origin
  names : List String
deriving DecidableEq

namespace Place

/-- The working directory. -/
def working : Place := ⟨.above 0, []⟩

/-- One level down. -/
def child (p : Place) (name : String) : Place := { p with names := p.names ++ [name] }

/-- One level up; the root is its own parent. -/
def parent (p : Place) : Place :=
  match p.names, p.origin with
  | [], .root => p
  | [], .above levels => ⟨.above (levels + 1), []⟩
  | _ :: _, _ => { p with names := p.names.dropLast }

/-- Where a name leads: a point stays, two points go up, any other name goes down. -/
def step (p : Place) (name : String) : Place :=
  if name = "." then p else if name = ".." then p.parent else p.child name

/-- Where a path starts. -/
def start (path : Path) : Place := if path.absolute then ⟨.root, []⟩ else working

/-- The place that a path names, whatever lies on the way there. -/
def ofPath (path : Path) : Place := path.names.foldl step (start path)

/-- Is the last name short enough to be looked up? -/
def nameFits (p : Place) : Bool :=
  match p.names.getLast? with
  | some name => name.utf8ByteSize ≤ Path.longestName
  | none => true

/-- Why nothing is found at a place. -/
def absence (p : Place) : FileFault := if p.nameFits then .notFound else .nameTooLong

/-- Does `q` lie below `p`? -/
def isAbove (p q : Place) : Bool :=
  p.origin = q.origin && p.names.isPrefixOf q.names && p.names.length < q.names.length

end Place

/-! ## Trees -/

/-- Something that can be read and written like a file and keeps nothing. -/
inductive Device where
  /-- Swallows what is written. -/
  | null
  | output
  | errorOutput
deriving DecidableEq

/-- What lies at a place. -/
inductive Entry where
  | directory
  | file (text : String)
  | device (device : Device)

/-- What every machine has below its root. -/
def Entry.common : List (List String × Entry) :=
  [(["tmp"], .directory), (["dev"], .directory), (["dev", "null"], .device .null),
    (["dev", "stdout"], .device .output), (["dev", "stderr"], .device .errorOutput)]

/-- Files with their places. -/
structure FileTree where
  files : FinMap Place String

namespace FileTree

/-- Is the place a directory? -/
def isDirectory (t : FileTree) (p : Place) : Bool :=
  p.names.isEmpty || t.files.keys.any p.isAbove

/-- What lies at a place, if anything does. -/
def entry? (t : FileTree) (p : Place) : Option Entry :=
  match t.files.get? p with
  | some text => some (.file text)
  | none =>
    if t.isDirectory p then some .directory
    else if p.origin = .root then Entry.common.lookup p.names
    else none

/-- Walks down along names.  Only the last one may be missing. -/
def walk (t : FileTree) (p : Place) : List String → Except FileFault Place
  | [] => .ok p
  | name :: rest =>
    match t.entry? p with
    | none => .error p.absence
    | some .directory => walk t (p.step name) rest
    | some _ => .error .notDirectory

/-- The place to which a path leads. -/
def locate (t : FileTree) (path : Path) : Except FileFault Place :=
  t.walk (.start path) path.names

/-- What can be read at a path. -/
def source (t : FileTree) (text : String) : Except FileFault Entry := do
  let path ← Path.ofText text
  let place ← t.locate path
  match t.entry? place with
  | none => .error place.absence
  | some .directory => .error .isDirectory
  | some entry => if path.closed then .error .notDirectory else .ok entry

/-- Where a path puts a file. -/
def target (t : FileTree) (text : String) : Except FileFault Place := do
  let path ← Path.ofText text
  let place ← t.locate path
  if path.closed then .error .isDirectory
  else match t.entry? place with
    | some .directory => .error .isDirectory
    | some _ => .ok place
    | none => if place.nameFits then .ok place else .error .nameTooLong

/-- The tree with a file. -/
def insert (t : FileTree) (p : Place) (text : String) : FileTree := ⟨t.files.insert p text⟩

/-- The tree with a file and the directories on the way to it.  A path that cannot be a file's adds
nothing. -/
def provide (t : FileTree) (name text : String) : FileTree :=
  match Path.ofText name with
  | .error _ => t
  | .ok path =>
    match path.closed, t.entry? (.ofPath path) with
    | false, none | false, some (.file _) => t.insert (.ofPath path) text
    | _, _ => t

/-- The tree with the given files and no others; of two for one place the later counts. -/
def ofFiles (files : List (String × String)) : FileTree :=
  files.foldl (fun t (name, text) => t.provide name text) ⟨.empty⟩

end FileTree

end MayAlias
