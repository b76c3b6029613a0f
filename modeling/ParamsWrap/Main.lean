import ParamsWrap.CommandLine.Run

/-!
# The command

Runs the command on the disk: reads and writes the file, and prints what the run answers.
-/

namespace ParamsWrap

/-- The number that an error carries, which may be the negative of the system's. -/
def signedCode : IO.Error → UInt32
  | .alreadyExists _ code _ | .otherError code _ | .resourceBusy code _ | .resourceVanished code _
  | .unsupportedOperation code _ | .hardwareFault code _ | .unsatisfiedConstraints code _
  | .illegalOperation code _ | .protocolError code _ | .timeExpired code _ | .interrupted _ code _
  | .noFileOrDirectory _ code _ | .invalidArgument _ code _ | .permissionDenied _ code _
  | .resourceExhausted _ code _ | .inappropriateType _ code _ | .noSuchThing _ code _ => code
  | .unexpectedEof | .userError _ => 0

/-- The number by which the system names an error. -/
def systemCode (e : IO.Error) : Nat :=
  (signedCode e).toInt32.toInt.natAbs

def Fault.ofError (e : IO.Error) : Fault :=
  match systemCode e with
  | 2 => .notFound
  | 20 => .notDirectory
  | 21 => .isDirectory
  | 36 => .nameTooLong
  | code => .other code (toString e)

/-- The fault that an action on the disk met, if it met one. -/
def faulty {α : Type} (action : IO α) : IO (Except Fault α) := do
  match ← action.toBaseIO with
  | .ok a => return .ok a
  | .error e => return .error (.ofError e)

instance : FileAccess IO where
  read p := ExceptT.mk (faulty (ByteArray.toList <$> IO.FS.readBinFile p.display))
  write p content := ExceptT.mk (faulty (IO.FS.writeBinFile p.display content.toByteArray))

end ParamsWrap

open ParamsWrap in
def main (args : List String) : IO UInt32 := do
  let palette := Palette.ofEnvironment (← IO.getEnv "CLICOLOR_FORCE") (← IO.getEnv "NO_COLOR")
  let outcome ← command palette (args.map fun arg => Text.encode arg.toList)
  IO.print outcome.stdout
  IO.eprint outcome.stderr
  return outcome.code
