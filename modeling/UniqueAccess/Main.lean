import UniqueAccess.Command.Run

/-!
# The command line tool
-/

namespace UniqueAccess

/-- The system's number of an error, which is negative in some reports. -/
def errorNumber (code : UInt32) : Nat := min code.toNat (-code).toNat

def readFailure (e : IO.Error) : ReadFailure :=
  match e with
  | .noFileOrDirectory .. => .missing
  | .permissionDenied .. => .denied
  | .inappropriateType _ code _ =>
    if errorNumber code = 20 then .notADirectory else .isADirectory
  | .invalidArgument _ code _ => if errorNumber code = 36 then .nameTooLong else .other (toString e)
  | _ => .other (toString e)

def readText (path : String) : IO (Except ReadFailure String) := do
  match ← EIO.toBaseIO (IO.FS.readBinFile path) with
  | .error e => return .error (readFailure e)
  | .ok bytes =>
    match String.fromUTF8? bytes with
    | some text => return .ok text
    | none => return .error .notText

end UniqueAccess

open UniqueAccess in
def main (args : List String) : IO UInt32 := do
  match Command.ofArguments? args with
  | none =>
    IO.eprint usage
    return 2
  | some command => do
    let outcome ← command.run readText
    IO.print outcome.output
    IO.eprint outcome.errorText
    return outcome.exitCode.toUInt32
