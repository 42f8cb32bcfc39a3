import SmallC.CommandLine.Options
import SmallC.Compile

/-!
# Running a command line

What a command line comes to is worked out from the files it can read, without touching any: text for
the two output streams and an exit code, or a file to be written first.
-/
namespace SmallC.CommandLine

/-- How a run ends. -/
structure Ending where
  exitCode : UInt32
  output : String := ""
  errors : String := ""

inductive Action where
  | rejected (e : UsageError)
  | finish (e : Ending)
  /-- Write the text, having shown something already. -/
  | write (path : Path) (text shown : String)

structure Plan where
  action : Action
  /-- The files that the plan hangs on. -/
  consulted : List Path := []

def versionText : String :=
  "ccomp 0.1.0\n"

def helpLines : List String :=
  ["Compiler for a small C subset targeting x86 (AT&T syntax)",
    "",
    "Usage: ccomp [OPTIONS] <INPUT>",
    "",
    "Options:",
    "  -o, --output <OUTPUT>            Output assembly file (defaults to stdout)",
    "  -I, --include <DIR>              Additional directories searched by #include",
    "  -D, --define <NAME[=VALUE]>      Predefine an object-like macro",
    "      --max-depth <MAX_DEPTH>      Maximum include and macro expansion depth",
    "      --diagnostics <DIAGNOSTICS>  Diagnostic format: plain or rich",
    "      --dump-tokens                Dump tokens",
    "      --dump-ast                   Dump AST",
    "  -v, --verbose                    Verbose output",
    "  -h, --help                       Print help",
    "  -V, --version                    Print version"]

def helpText : String :=
  String.join (helpLines.map (· ++ "\n"))

/-- The name of the file ends as the name of a source file does. -/
def looksLikeSource (path : Path) : Bool :=
  match path.extension? with
  | some ext => language.extensions.contains ("." ++ ext)
  | none => false

def warning (path : Path) : String :=
  if looksLikeSource path then ""
  else
    "[WARN  ccomp] " ++ path.text
      ++ " does not look like a C source file, compiling it anyway\n"

def unreadable (path : Path) (p : Problem) : String :=
  "error: unable to read " ++ path.text ++ ": " ++ p.describe ++ ": " ++ p.message ++ "\n"

def unwritable (path : Path) (e : FileError) : String :=
  "error: unable to write " ++ path.text ++ ": " ++ e.message ++ "\n"

def planCompile (read : Path → Except FileError String) (input : Path) (o : Options) : Plan :=
  match compileFile (o.style.getD .plain) read {} input o.settings o.showTokens o.showTree with
  | .error p =>
    { action := .finish ⟨1, "", warning input ++ unreadable input p⟩, consulted := [input] }
  | .ok c =>
    let shown := warning input ++ c.shown
    let action : Action :=
      match c.assembly, o.output with
      | none, _ => .finish ⟨1, "", shown⟩
      | some text, none => .finish ⟨0, text, shown⟩
      | some text, some path => .write path text shown
    { action, consulted := input :: c.tried }

/-- What the arguments come to. -/
def plan (read : Path → Except FileError String) (args : List String) : Plan :=
  match Options.read {} args with
  | .error e => { action := .rejected e }
  | .ok .version => { action := .finish ⟨0, versionText, ""⟩ }
  | .ok .help => { action := .finish ⟨0, helpText, ""⟩ }
  | .ok (.compile input o) => planCompile read input o

/-- How a run ends that wrote its output to a file, or could not. -/
def afterWrite (path : Path) (shown : String) : Except FileError Unit → Ending
  | .ok () => ⟨0, "", shown⟩
  | .error e => ⟨1, "", shown ++ unwritable path e⟩

/-- Runs a command line in a directory. A rejected one has no ending. -/
def runIn (tree : FileTree) (args : List String) : Option Ending × FileTree :=
  match (plan tree.read args).action with
  | .rejected _ => (none, tree)
  | .finish e => (some e, tree)
  | .write path text shown =>
    match tree.write path text with
    | .ok written => (some (afterWrite path shown (.ok ())), written)
    | .error e => (some (afterWrite path shown (.error e)), tree)

end SmallC.CommandLine
