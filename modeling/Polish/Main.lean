import Polish.CommandLine

namespace Polish.CommandLine

def faultOf : IO.Error → ReadFault
  | .noFileOrDirectory _ _ _ => .notFound
  | .inappropriateType _ code _ =>
      if code = 21 ∨ code = -21 then .isADirectory else .notADirectory
  | .permissionDenied _ _ _ => .other "Permission denied (os error 13)"
  | error => .other error.toString

def readStream (stream : IO.FS.Stream) : IO ByteArray := do
  let mut bytes := ByteArray.empty
  repeat
    let chunk ← stream.read 65536
    if chunk.isEmpty then
      break
    bytes := bytes ++ chunk
  return bytes

def readSource (source : Source) : IO (Except ReadFault ByteArray) := do
  let read : IO ByteArray :=
    match source with
    | .standardInput => do readStream (← IO.getStdin)
    | .file path => IO.FS.readBinFile path
  match ← read.toBaseIO with
  | .ok bytes => return .ok bytes
  | .error error => return .error (faultOf error)

end Polish.CommandLine

open Polish in
def main (arguments : List String) : IO UInt32 := do
  let contents ←
    match Options.ofArguments arguments with
    | .ok options => CommandLine.readSource options.source
    | .error _ => pure (.ok ByteArray.empty)
  let outcome := CommandLine.run arguments fun _ => contents
  IO.print outcome.stdout
  IO.eprint outcome.stderr
  return outcome.exitCode.toUInt32
