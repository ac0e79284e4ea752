import MayAlias.Cfg
import MayAlias.Host
import MayAlias.Procedure.Json

/-!
# Loading procedures

From the bytes of a file to the control-flow graph of the procedure described in it.
-/

namespace MayAlias

/-- Why a procedure cannot be loaded. -/
inductive LoadError where
  | unreadable (fault : FileFault)
  | malformed (fault : Json.Fault)
  | invalid (error : Cfg.BuildError)
deriving DecidableEq

/-- The text of an error, for the file at `path`. -/
def LoadError.message (path : String) : LoadError → String
  | unreadable fault => "unable to read " ++ path ++ ": " ++ fault.message
  | malformed _ => "malformed procedure description"
  | invalid error => error.message

namespace Cfg

/-- The control-flow graph of the procedure that a text describes. -/
def ofJson (text : String) : Except LoadError Cfg :=
  match Procedure.ofJson text with
  | .error fault => .error (.malformed fault)
  | .ok p =>
    match build p with
    | .error error => .error (.invalid error)
    | .ok g => .ok g

/-- The control-flow graph of the procedure in a file, given what reading the file gave. -/
def load (content : Except FileFault ByteArray) : Except LoadError Cfg :=
  match content with
  | .error fault => .error (.unreadable fault)
  | .ok bytes =>
    match String.fromUTF8? bytes with
    | none => .error (.unreadable .notText)
    | some text => ofJson text

end Cfg

end MayAlias
