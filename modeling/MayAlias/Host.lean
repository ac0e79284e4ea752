/-!
# Hosts

What a command needs from the place where it runs: files by their paths, and two outputs.
-/

namespace MayAlias

/-- Why a file cannot be read or written. -/
inductive FileFault where
  | notFound
  | isDirectory
  /-- A path leads through something that is not a directory. -/
  | notDirectory
  | nameTooLong
  /-- A path with a character that no path can have. -/
  | nulInName
  /-- The content is not UTF-8 text. -/
  | notText
  /-- Any other reason, in the words of the system. -/
  | other (reason : String)
deriving DecidableEq

/-- The text of a fault. -/
def FileFault.message : FileFault → String
  | notFound => "No such file or directory (os error 2)"
  | isDirectory => "Is a directory (os error 21)"
  | notDirectory => "Not a directory (os error 20)"
  | nameTooLong => "File name too long (os error 36)"
  | nulInName => "file name contained an unexpected NUL byte"
  | notText => "stream did not contain valid UTF-8"
  | other reason => reason

/-- Where a command reads and writes. -/
structure Host (m : Type → Type) where
  /-- The content of a file. -/
  fetch : String → m (Except FileFault ByteArray)
  /-- Creates a file, or replaces its content. -/
  save : String → String → m (Except FileFault Unit)
  /-- Writes to the standard output. -/
  print : String → m Unit
  /-- Writes to the standard error output. -/
  printError : String → m Unit

end MayAlias
