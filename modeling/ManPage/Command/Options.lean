import ManPage.Render.Sink

/-! # Arguments of the command

Arguments are read from left to right, and the first one that asks for help, for the version, or for
what cannot be, decides. A lone hyphen is no option, and after `--` nothing is.
-/
namespace ManPage.Command

structure Options where
  input : Option Text := none
  output : Option Text := none
  noBanner : Bool := false
  trailingNewline : Bool := false
  quiet : Bool := false
deriving DecidableEq, Repr, Inhabited

/-- Why there is nothing to convert. -/
inductive Stop
  | help
  | version
  | misuse
deriving DecidableEq, Repr, Inhabited

namespace Options

def layout (o : Options) : Layout := ⟨!o.noBanner, o.trailingNewline⟩

/-- Each option is given at most once. -/
def once (given : Bool) (o : Options) : Except Stop Options :=
  if given then .error .misuse else .ok o

def withInput (o : Options) (path : Text) : Except Stop Options :=
  once o.input.isSome { o with input := some path }

def withOutput (o : Options) (path : Text) : Except Stop Options :=
  once o.output.isSome { o with output := some path }

def withQuiet (o : Options) : Except Stop Options := once o.quiet { o with quiet := true }

end Options

/-- How far the arguments have been read: free to take any argument, waiting for the value of the
output option, or behind `--`. -/
inductive Parsing
  | free (o : Options)
  | output (o : Options)
  | operands (o : Options)
deriving DecidableEq, Repr, Inhabited

namespace Parsing

/-- Options of one letter, several of them behind one hyphen. -/
def letters (o : Options) : Text → Except Stop Parsing
  | [] => .ok (free o)
  | 'q' :: r => do
    let o ← o.withQuiet
    letters o r
  | 'h' :: _ => .error .help
  | 'V' :: _ => .error .version
  | ['o'] => .ok (output o)
  | 'o' :: '=' :: path => return free (← o.withOutput path)
  | 'o' :: path => return free (← o.withOutput path)
  | _ => .error .misuse

/-- An option that is named in full, with its value behind an equals sign if there is one. -/
def named (o : Options) (name : Text) (value : Option Text) : Except Stop Parsing :=
  match String.ofList name, value with
  | "output", some path => return free (← o.withOutput path)
  | "output", none => .ok (output o)
  | "no-banner", none => return free (← Options.once o.noBanner { o with noBanner := true })
  | "trailing-newline", none =>
    return free (← Options.once o.trailingNewline { o with trailingNewline := true })
  | "quiet", none => return free (← o.withQuiet)
  | "help", none => .error .help
  | "version", none => .error .version
  | _, _ => .error .misuse

/-- Splits at the first equals sign. -/
def splitValue (t : Text) : Text × Option Text :=
  match t.dropWhile (· ≠ '=') with
  | [] => (t, none)
  | _ :: value => (t.takeWhile (· ≠ '='), some value)

def step : Parsing → Text → Except Stop Parsing
  | operands o, a => return operands (← o.withInput a)
  | output o, a =>
    match a with
    | '-' :: _ :: _ => .error .misuse
    | path => return free (← o.withOutput path)
  | free o, a =>
    match a with
    | ['-', '-'] => .ok (operands o)
    | '-' :: '-' :: t => named o (splitValue t).1 (splitValue t).2
    | '-' :: c :: t => letters o (c :: t)
    | path => return free (← o.withInput path)

def finish : Parsing → Except Stop Options
  | free o => .ok o
  | operands o => .ok o
  | output _ => .error .misuse

end Parsing

def parse (args : List Text) : Except Stop Options := do
  let p ← args.foldlM Parsing.step (.free {})
  p.finish

def versionText : Text := "roffdown 0.1.0\n".toList

def helpText : Text :=
  ("Render markdown document trees as man pages\n\n" ++
  "Usage: roffdown [OPTIONS] [INPUT]\n\n" ++
  "Arguments:\n" ++
  "  [INPUT]  JSON document tree (stdin if omitted or `-`)\n\n" ++
  "Options:\n" ++
  "  -o, --output <OUTPUT>   Output file (stdout if omitted)\n" ++
  "      --no-banner         Omit the generated-by comment banner\n" ++
  "      --trailing-newline  End the output with a newline\n" ++
  "  -q, --quiet             Suppress output messages\n" ++
  "  -h, --help              Print help\n" ++
  "  -V, --version           Print version\n\n" ++
  "EXAMPLES:\n" ++
  "    roffdown page.json -o page.1    Convert a JSON tree to a man page\n" ++
  "    parser page.md | roffdown       Convert a tree read from stdin\n").toList

end ManPage.Command
