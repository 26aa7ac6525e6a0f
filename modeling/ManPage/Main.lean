import ManPage.Command.Run

/-! # The program

Looks up the input, lets the command decide, and carries its plan out.
-/
namespace ManPage.Command

/-- The reason of a failed access, where it lies in the path. -/
def pathError? : IO.Error → Option Load.PathError
  | .noFileOrDirectory .. => some .missing
  | .permissionDenied _ 13 _ => some .denied
  | .inappropriateType _ 20 _ => some .notDirectory
  | .inappropriateType _ 21 _ => some .isDirectory
  | .invalidArgument _ 36 _ => some .nameTooLong
  | _ => none

/-- Opens the file without a look at its size, so that a directory fails only when it is read. -/
def lookUp (path : String) : IO PathTarget := do
  try
    let file ← IO.FS.Handle.mk path .read
    return .file (← file.readBinToEnd).toList
  catch e =>
    match pathError? e with
    | some .isDirectory => return .directory
    | some reason => return .unreachable reason
    | none => throw e

partial def readAll (stream : IO.FS.Stream) (done : ByteArray) : IO ByteArray := do
  let chunk ← stream.read 65536
  if chunk.isEmpty then return done
  readAll stream (done ++ chunk)

def lookUpInput (path : Option Text) : IO PathTarget := do
  match path with
  | none => return .file (← readAll (← IO.getStdin) ByteArray.empty).toList
  | some path => lookUp (String.ofList path)

def logTo (err : IO.FS.Stream) (setting : Option Text) (o : Options) (log : List LogLine) :
    IO Unit := do
  for line in log.filter (Verbosity.ofSetting o.quiet setting).shows do
    err.putStrLn (String.ofList (line.level.name ++ ' ' :: line.text))

def save (path : String) (page : Text) : IO (Option Load.PathError) := do
  try
    IO.FS.writeFile path (String.ofList page)
    return none
  catch e =>
    match pathError? e with
    | some reason => return some reason
    | none => throw e

def fail (err : IO.FS.Stream) (message : Text) : IO UInt32 := do
  err.putStrLn (String.ofList (complain message))
  return 1

def perform (o : Options) : IO UInt32 := do
  let out ← IO.getStdout
  let err ← IO.getStderr
  let setting := (← IO.getEnv "RUST_LOG").map String.toList
  let source ← lookUpInput o.inputPath
  match o.plan source with
  | .refuse message => fail err message
  | .print page log =>
    logTo err setting o log
    out.putStr (String.ofList page)
    out.flush
    return 0
  | .save path page log =>
    match ← save (String.ofList path) page with
    | some e => fail err e.message
    | none =>
      logTo err setting o log
      return 0

end ManPage.Command

open ManPage.Command in
def main (args : List String) : IO UInt32 := do
  match parse (args.map String.toList) with
  | .error .help => do
    (← IO.getStdout).putStr (String.ofList helpText)
    return 0
  | .error .version => do
    (← IO.getStdout).putStr (String.ofList versionText)
    return 0
  | .error .misuse => do
    (← IO.getStderr).putStrLn "error: invalid arguments"
    return 2
  | .ok o => perform o
