import SmallC.Preprocessor
import SmallC.Problem.Display

/-!
# Options

Arguments are read from left to right. A setting takes a value, either attached to its name or as the
next argument, which then may not look like an option; a flag takes none. Short flags can share one
dash. All but the repeatable settings may be given once, and exactly one argument names the input. A
request for the version or for help is answered as soon as it is met.
-/
namespace SmallC.CommandLine

inductive UsageError where
  | unknownOption
  | repeatedOption
  | missingValue
  | unwantedValue
  | badValue
  | extraInput
  | missingInput
  deriving DecidableEq

inductive Flag where
  | showTokens
  | showTree
  | verbose
  | version
  | help
  deriving DecidableEq

inductive Setting where
  | output
  | includeDir
  | define
  | maxDepth
  | diagnostics
  deriving DecidableEq

/-- What a name on the command line stands for. -/
inductive Choice where
  | flag (f : Flag)
  | setting (s : Setting)

/-- The arguments read so far. -/
structure Options where
  input : Option Path := none
  output : Option Path := none
  includeDirs : List Path := []
  defines : List (String × String) := []
  maxDepth : Option Nat := none
  style : Option Style := none
  showTokens : Bool := false
  showTree : Bool := false
  verbose : Bool := false

/-- What the arguments ask for. -/
inductive Request where
  | version
  | help
  | compile (input : Path) (options : Options)

/-- Where reading stands after some arguments. -/
inductive Progress where
  | options (o : Options)
  | needsValue (s : Setting) (o : Options)
  | answered (r : Request)

def short? : Char → Option Choice
  | 'o' => some (.setting .output)
  | 'I' => some (.setting .includeDir)
  | 'D' => some (.setting .define)
  | 'v' => some (.flag .verbose)
  | 'V' => some (.flag .version)
  | 'h' => some (.flag .help)
  | _ => none

def long? : String → Option Choice
  | "output" => some (.setting .output)
  | "include" => some (.setting .includeDir)
  | "define" => some (.setting .define)
  | "max-depth" => some (.setting .maxDepth)
  | "diagnostics" => some (.setting .diagnostics)
  | "dump-tokens" => some (.flag .showTokens)
  | "dump-ast" => some (.flag .showTree)
  | "verbose" => some (.flag .verbose)
  | "version" => some (.flag .version)
  | "help" => some (.flag .help)
  | _ => none

/-- Splits at the first equals sign. -/
def splitValue (text : List Char) : List Char × Option (List Char) :=
  match text.dropWhile (· ≠ '=') with
  | [] => (text, none)
  | _ :: value => (text.takeWhile (· ≠ '='), some value)

/-- A definition from the command line; a name alone stands for the number one. -/
def readDefine (text : String) : String × String :=
  match splitValue text.toList with
  | (name, some body) => (String.ofList name, String.ofList body)
  | (name, none) => (String.ofList name, "1")

def readPath (text : String) : Except UsageError Path :=
  if text == "" then .error .badValue else .ok ⟨text⟩

/-- A number below 2^64: decimal digits, with a plus sign in front or not. -/
def readNumber (text : String) : Except UsageError Nat :=
  let digits :=
    match text.toList with
    | '+' :: digits => digits
    | digits => digits
  let value := digits.foldl (fun n c => 10 * n + (c.toNat - '0'.toNat)) 0
  if digits.isEmpty || !digits.all Char.isDigit || value ≥ UInt64.size then .error .badValue
  else .ok value

def readStyle : String → Except UsageError Style
  | "plain" => .ok .plain
  | "rich" => .ok .rich
  | _ => .error .badValue

namespace Options

def applyFlag (o : Options) : Flag → Except UsageError Progress
  | .version => .ok (.answered .version)
  | .help => .ok (.answered .help)
  | .showTokens =>
    if o.showTokens then .error .repeatedOption else .ok (.options { o with showTokens := true })
  | .showTree =>
    if o.showTree then .error .repeatedOption else .ok (.options { o with showTree := true })
  | .verbose =>
    if o.verbose then .error .repeatedOption else .ok (.options { o with verbose := true })

def applySetting (o : Options) (value : String) : Setting → Except UsageError Options
  | .includeDir => do return { o with includeDirs := o.includeDirs ++ [← readPath value] }
  | .define => .ok { o with defines := o.defines ++ [readDefine value] }
  | .output =>
    if o.output.isSome then .error .repeatedOption
    else do return { o with output := some (← readPath value) }
  | .maxDepth =>
    if o.maxDepth.isSome then .error .repeatedOption
    else do return { o with maxDepth := some (← readNumber value) }
  | .diagnostics =>
    if o.style.isSome then .error .repeatedOption
    else do return { o with style := some (← readStyle value) }

def applyInput (o : Options) (value : String) : Except UsageError Options :=
  if o.input.isSome then .error .extraInput
  else do return { o with input := some (← readPath value) }

/-- Short options that share a dash. A setting takes all that follows it as its value, an equals sign
in front left out. -/
def applyShort (o : Options) : List Char → Except UsageError Progress
  | [] => .ok (.options o)
  | c :: more =>
    match short? c with
    | none => .error .unknownOption
    | some (.flag f) => do
      match ← o.applyFlag f with
      | .options o => applyShort o more
      | progress => .ok progress
    | some (.setting s) =>
      match more with
      | [] => .ok (.needsValue s o)
      | '=' :: value => do return .options (← o.applySetting (String.ofList value) s)
      | value => do return .options (← o.applySetting (String.ofList value) s)

/-- An option with a long name. -/
def applyLong (o : Options) (text : List Char) : Except UsageError Progress :=
  let (name, value) := splitValue text
  match long? (String.ofList name), value with
  | none, _ => .error .unknownOption
  | some (.flag f), none => o.applyFlag f
  | some (.flag _), some _ => .error .unwantedValue
  | some (.setting s), none => .ok (.needsValue s o)
  | some (.setting s), some value => do
    return .options (← o.applySetting (String.ofList value) s)

/-- One argument. A dash alone is an input. -/
def apply (o : Options) (arg : String) : Except UsageError Progress :=
  match arg.toList with
  | '-' :: '-' :: name => o.applyLong name
  | '-' :: c :: more => o.applyShort (c :: more)
  | _ => do return .options (← o.applyInput arg)

/-- The argument would be read as an option. -/
def looksLikeOption (arg : String) : Bool :=
  arg.toList.head? == some '-' && arg != "-"

def finish (o : Options) : Except UsageError Request :=
  match o.input with
  | some input => .ok (.compile input o)
  | none => .error .missingInput

/-- Reads the arguments that are left; two dashes end the options. -/
def read (o : Options) : List String → Except UsageError Request
  | [] => o.finish
  | "--" :: inputs => do (← inputs.foldlM applyInput o).finish
  | arg :: more => do
    match ← o.apply arg with
    | .options o => read o more
    | .answered request => .ok request
    | .needsValue s o =>
      match more with
      | [] => .error .missingValue
      | value :: rest =>
        if looksLikeOption value then .error .missingValue
        else read (← o.applySetting value s) rest

def settings (o : Options) : Settings :=
  { includeDirs := o.includeDirs, defines := o.defines, maxDepth := o.maxDepth.getD 200 }

end Options

end SmallC.CommandLine
