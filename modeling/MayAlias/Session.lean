import MayAlias.FileTree

/-!
# Sessions

A host without a machine: files in memory and the texts printed so far.  A command that runs in a
session is a function from sessions to sessions.
-/

namespace MayAlias

/-- Files and what has been printed. -/
structure Session where
  files : FileTree
  output : String := ""
  errors : String := ""

namespace Session

/-- Prints to the standard output. -/
def print (s : Session) (text : String) : Session := { s with output := s.output ++ text }

/-- Prints to the standard error output. -/
def printError (s : Session) (text : String) : Session := { s with errors := s.errors ++ text }

/-- The text at a path.  From a device there is nothing to read. -/
def read (s : Session) (path : String) : Except FileFault String := do
  match ← s.files.source path with
  | .file text => .ok text
  | _ => .ok ""

/-- Writes a text to a path. -/
def write (s : Session) (path text : String) : Except FileFault Session := do
  let place ← s.files.target path
  match s.files.entry? place with
  | some (.device .null) => .ok s
  | some (.device .output) => .ok (s.print text)
  | some (.device .errorOutput) => .ok (s.printError text)
  | _ => .ok { s with files := s.files.insert place text }

/-- The session as the place where a command runs. -/
def host : Host (StateM Session) where
  fetch path := do return ((← get).read path).map String.toUTF8
  save path text := do
    match (← get).write path text with
    | .error fault => return .error fault
    | .ok s =>
      set s
      return .ok ()
  print text := modify fun s => s.print text
  printError text := modify fun s => s.printError text

end Session

end MayAlias
