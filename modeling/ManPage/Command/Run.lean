import ManPage.Command.Folder
import ManPage.Command.Log
import ManPage.Command.Options

/-! # Running the command

The tree is loaded before the output file is made. So a tree that does not load leaves every file as
it was, and the input may be the output.
-/
namespace ManPage.Command
open Load

/-- What the command does once its input has been looked up. -/
inductive Plan
  | refuse (message : Text)
  | print (page : Text) (log : List LogLine)
  | save (path : Text) (page : Text) (log : List LogLine)
deriving DecidableEq, Repr, Inhabited

namespace Options

/-- The path of the input; none for the standard input. -/
def inputPath (o : Options) : Option Text := o.input.filter (· ≠ ['-'])

def plan (o : Options) (source : PathTarget) : Plan :=
  match Document.ofTarget source with
  | .error e => .refuse e.message
  | .ok d =>
    let w := o.layout.typeset d
    let log := w.events.map .event ++ [.rendered]
    match o.output with
    | none => .print w.result log
    | some path => .save path w.result (log ++ [.wrote path])

end Options

structure Outcome where
  code : Nat
  output : Text
  complaint : Option Text
  log : List LogLine
  files : FileSystem

def complain (message : Text) : Text := "error: ".toList ++ message

def failed (fs : FileSystem) (message : Text) : Outcome := ⟨1, [], some (complain message), [], fs⟩

def carryOut (fs : FileSystem) : Plan → Outcome
  | .refuse message => failed fs message
  | .print page log => ⟨0, page, none, log, fs⟩
  | .save path page log =>
    match fs.write path (Text.encode page) with
    | .error e => failed fs e.message
    | .ok made => ⟨0, [], none, log, made⟩

/-- What a path leads to, or the standard input. -/
def source (stdin : List UInt8) (fs : FileSystem) : Option Text → PathTarget
  | none => .file stdin
  | some path => fs.target path

def convertFile (o : Options) (stdin : List UInt8) (fs : FileSystem) : Outcome :=
  carryOut fs (o.plan (source stdin fs o.inputPath))

/-- A run with these arguments and this setting of the log, of which the outcome holds the lines
that are shown. -/
def run (args : List Text) (setting : Option Text) (stdin : List UInt8) (fs : FileSystem) :
    Outcome :=
  match parse args with
  | .error .help => ⟨0, helpText, none, [], fs⟩
  | .error .version => ⟨0, versionText, none, [], fs⟩
  | .error .misuse => ⟨2, [], none, [], fs⟩
  | .ok o =>
    let done := convertFile o stdin fs
    { done with log := done.log.filter (Verbosity.ofSetting o.quiet setting).shows }

end ManPage.Command
