import SmallC.CommandLine.Run

/-!
# The command

Reads the files that a command line turns out to need, one after the other, until what it comes to
hangs on no other; then shows and writes that.
-/
namespace SmallC.CommandLine

/-- The system's number for an error, which may arrive with its sign turned. -/
def errorNumber (code : UInt32) : Nat :=
  if code.toNat < UInt32.size / 2 then code.toNat else UInt32.size - code.toNat

def fileError : IO.Error → FileError
  | .noFileOrDirectory .. => .notFound
  | .inappropriateType _ code details =>
    match errorNumber code with
    | 20 => .notDirectory
    | 21 => .isDirectory
    | _ => .other details
  | e => .other (toString e)

def readText (path : Path) : IO (Except FileError String) := do
  try
    match String.fromUTF8? (← IO.FS.readBinFile path.text) with
    | some text => return .ok text
    | none => return .error .notText
  catch e => return .error (fileError e)

/-- Files that have been looked for, with what was found. -/
abbrev Known := List (Path × Except FileError String)

def Known.read (known : Known) (path : Path) : Except FileError String :=
  ((known.find? (·.1 == path)).map (·.2)).getD (.error .notFound)

partial def settle (args : List String) (known : Known) : IO Action := do
  let plan := plan known.read args
  match plan.consulted.find? fun path => !known.any (·.1 == path) with
  | none => return plan.action
  | some path => settle args ((path, ← readText path) :: known)

def conclude (e : Ending) : IO UInt32 := do
  IO.eprint e.errors
  IO.print e.output
  return e.exitCode

def write (path : Path) (text : String) : IO (Except FileError Unit) := do
  try
    IO.FS.writeFile path.text text
    return .ok ()
  catch e => return .error (fileError e)

end SmallC.CommandLine

open SmallC.CommandLine in
def main (args : List String) : IO UInt32 := do
  match ← settle args [] with
  | .rejected _ =>
    IO.eprint helpText
    return 2
  | .finish e => conclude e
  | .write path text shown => conclude (afterWrite path shown (← write path text))
