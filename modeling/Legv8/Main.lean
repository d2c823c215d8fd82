import Legv8.CommandLine

/-!
# The program
-/
namespace Legv8

def ReadError.ofIO : IO.Error → ReadError
  | .noFileOrDirectory .. => .notFound
  | .inappropriateType _ code _ => if code = 21 then .isDirectory else .notDirectory
  | err => .other (toString err)

def readFromDisk (path : String) : IO (Except ReadError ByteArray) := do
  try
    return .ok (← IO.FS.readBinFile path)
  catch err =>
    return .error (.ofIO err)

end Legv8

def main (args : List String) : IO UInt32 := do
  let result ← Legv8.CommandLine.run Legv8.readFromDisk args
  IO.print result.stdout
  if result.exit = 2 && result.stdout.isEmpty then IO.eprint Legv8.CommandLine.usageLine
  match result.fatal with
  | some message => IO.eprintln ("\n[!] FATAL: " ++ message)
  | none => pure ()
  return result.exit.toUInt32
