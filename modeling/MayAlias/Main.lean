import MayAlias.Command

/-!
# The program

Connects the command to the files, the environment and the terminal of the machine.
-/

namespace MayAlias

/-- An error in the words of the system, with its number.  Some calls give the number negated. -/
def systemFault (code : UInt32) (details : String) : FileFault :=
  let number := if code.toNat < 2147483648 then code.toNat else 4294967296 - code.toNat
  if number = 2 then .notFound
  else if number = 20 then .notDirectory
  else if number = 21 then .isDirectory
  else if number = 36 then .nameTooLong
  else .other (details.capitalize ++ " (os error " ++ toString number ++ ")")

/-- The fault behind an error of the system. -/
def faultOf (e : IO.Error) : FileFault :=
  match e with
  | .noFileOrDirectory _ code details => systemFault code details
  | .inappropriateType _ code details => systemFault code details
  | .permissionDenied _ code details => systemFault code details
  | .invalidArgument _ code details => systemFault code details
  | .resourceExhausted _ code details => systemFault code details
  | e => .other (toString e)

/-- Does something with the file at a path and catches the errors of the system. -/
def guarded {α : Type} (path : String) (action : IO α) : IO (Except FileFault α) := do
  if path.toList.contains '\x00' then return .error .nulInName
  try
    return .ok (← action)
  catch e => return .error (faultOf e)

/-- The machine the program runs on. -/
def machine : Host IO where
  fetch path := guarded path (IO.FS.readBinFile path)
  save path text := guarded path (IO.FS.withFile path .write fun file => do
    file.putStr text
    file.flush)
  print text := do
    let out ← IO.getStdout
    out.putStr text
    out.flush
  printError text := IO.eprint text

end MayAlias

/-- Runs the command with the arguments of the program, after those of the environment. -/
def main (args : List String) : IO UInt32 := do
  let flags ← IO.getEnv "PTA_FLAGS"
  MayAlias.Command.run MayAlias.machine (flags.getD "") args
