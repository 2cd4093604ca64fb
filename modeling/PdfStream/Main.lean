import PdfStream.CommandLine.Run

/-!
The program: it looks up the files that a request names, runs it and writes what came out.
-/
namespace PdfStream.CommandLine

/-- The system's own words for a failure. -/
def reasonOf : IO.Error → String
  | .noFileOrDirectory .. => "No such file or directory (os error 2)"
  | .permissionDenied .. => "Permission denied (os error 13)"
  | .inappropriateType _ 20 _ => "Not a directory (os error 20)"
  | .inappropriateType .. => "Is a directory (os error 21)"
  | error => toString error

def attempt (action : IO α) : IO (Except String α) := do
  try
    return .ok (← action)
  catch error =>
    return .error (reasonOf error)

partial def readToEnd (stream : IO.FS.Stream) (data : ByteArray) : IO ByteArray := do
  let piece ← stream.read 65536
  if piece.isEmpty then return data
  readToEnd stream (data ++ piece)

/-- The input named: a file, or standard input. -/
def readInput (host : Host) (path : Option String) : IO Host := do
  match filePath path with
  | none => return { host with stdin := (← readToEnd (← IO.getStdin) .empty).toList }
  | some path =>
    match ← attempt (IO.FS.Handle.mk path .read) with
    | .error reason => return { host with file := fun _ => .error reason }
    | .ok handle =>
      let source : Source ← match ← attempt (readToEnd (.ofHandle handle) .empty) with
        | .ok data => pure (.content data.toList)
        | .error reason => pure (.unreadable reason)
      return { host with file := fun _ => .ok source }

def makeOutput (host : Host) (path : Option String) : IO Host := do
  match filePath path with
  | none => return host
  | some path =>
    let made ← attempt (IO.FS.writeBinFile path .empty)
    return { host with create := fun _ => made }

/-- Touches no file that the request does not come to. -/
def gather (request : Request) : IO Host := do
  let entropy : Entropy := { seed := (← IO.getRandomBytes 32).toList }
  let host : Host := { file := fun _ => .ok (.content []), create := fun _ => .ok (), entropy }
  match request with
  | .filter r =>
    if r.chain.isOk then
      let host ← readInput host r.input
      if (host.input r.input).isOk then makeOutput host r.output else return host
    else return host
  | .digest r => readInput host r.input
  | _ => return host

def perform (outcome : Outcome) : IO UInt32 := do
  if let some (path, content) := outcome.created then
    IO.FS.writeBinFile path ⟨content.toArray⟩
  let stdout ← IO.getStdout
  stdout.write ⟨outcome.stdout.toArray⟩
  stdout.flush
  (← IO.getStderr).putStr outcome.stderr
  return outcome.code.toUInt32

end PdfStream.CommandLine

open PdfStream.CommandLine in
def main (arguments : List String) : IO UInt32 := do
  let request := Request.ofArguments arguments
  perform (request.run (← gather request))
