import SmallC.Definition
import SmallC.Directive
import SmallC.Text.Escape
import SmallC.Text.Measure
import SmallC.Token.Scan

/-!
# The preprocessor

Tokens are read from a stack of buffers. An include or a defined word suspends the buffer being read
and goes on in a new one; when that runs out, the suspended one is resumed where it stopped. Input
that is no token is handed on as an invalid token, so reading never stops before the end of the first
buffer.

`step` does one scan and what it leads to. That it always gets closer to the end is shown in
`SmallC.Preprocessor.Run`.
-/
namespace SmallC

/-- How far a buffer has been read. -/
structure Frame where
  buffer : Buffer
  /-- The unread text. -/
  rest : List Char
  /-- Bytes read. -/
  offset : Nat := 0
  /-- Newlines read. -/
  line : Nat := 0
  /-- Nothing but a gap has been read since the last newline. -/
  fresh : Bool := true
  /-- Where quoted includes are looked up first. -/
  directory : Path

namespace Frame

/-- A buffer nothing of which has been read. -/
def start (buffer : Buffer) (directory : Path) : Frame :=
  { buffer, rest := buffer.text.toList, directory }

/-- Goes over the characters `read`, which stand in front of `rest`. -/
def pass (f : Frame) (read rest : List Char) : Frame :=
  { f with rest, offset := f.offset + Text.size read, line := f.line + Text.lines read }

/-- Goes over a gap; a newline in it makes what follows the first on its line. -/
def passGap (f : Frame) (gap rest : List Char) : Frame :=
  { f.pass gap rest with fresh := f.fresh || Text.lines gap > 0 }

/-- Goes over something that is not a gap. There are newlines in it only if it is a directive, which counts
them. -/
def passItem (f : Frame) (read rest : List Char) (newlines : Nat := 0) : Frame :=
  { f with rest, offset := f.offset + Text.size read, line := f.line + newlines, fresh := false }

/-- The position of a lexeme that starts where the frame stands. -/
def position (f : Frame) (lexeme : List Char) : Position :=
  ⟨f.buffer.id, f.line, ⟨f.offset, f.offset + Text.size lexeme⟩⟩

end Frame

/-- What a run of the preprocessor can be told. -/
structure Settings where
  /-- Searched in order by every include, after the including file's directory if quoted. -/
  includeDirs : List Path := []
  /-- Words that are defined from the start, with their replacements. -/
  defines : List (String × String) := []
  /-- Most buffers that may be suspended at a time. -/
  maxDepth : Nat := 200

structure Preprocessor where
  /-- Finds the text of a file. -/
  load : Path → Option String
  includeDirs : List Path
  maxDepth : Nat
  active : Frame
  /-- The suspended buffers, the innermost first. -/
  suspended : List Frame := []
  definitions : Definitions := {}
  /-- Every registered buffer. -/
  files : List SourceFile
  /-- Every path that an include could have meant. -/
  tried : List Path := []

namespace Preprocessor

/-- What one step leads to: a token, nothing to show, or the end of the first buffer. -/
inductive Step where
  | token (t : Token) (next : Preprocessor)
  | silent (next : Preprocessor)
  | finish (t : Token) (last : Preprocessor)

/-- Number of suspended buffers. -/
def depth (p : Preprocessor) : Nat :=
  p.suspended.length

/-- Registers the replacement and binds the name to it. -/
def define (p : Preprocessor) (name body : String) : Preprocessor :=
  let buffer : Buffer := ⟨p.files.length, .replacement name, body⟩
  { p with
    files := p.files ++ [⟨"<macro " ++ name ++ ">", body⟩]
    definitions := p.definitions.insert ⟨name, buffer⟩ }

/-- A preprocessor at the start of a file, to which `files` are already known. -/
def start (load : Path → Option String) (settings : Settings) (files : List SourceFile)
    (path : Path) (text : String) : Preprocessor :=
  let buffer : Buffer := ⟨files.length, .file path, text⟩
  let p : Preprocessor :=
    { load
      includeDirs := settings.includeDirs
      maxDepth := settings.maxDepth
      active := Frame.start buffer path.directory
      files := files ++ [⟨path.text, text⟩] }
  settings.defines.foldl (fun p (name, body) => p.define name body) p

/-- Suspends the buffer being read. -/
def enter (p : Preprocessor) (frame : Frame) : Preprocessor :=
  { p with active := frame, suspended := p.active :: p.suspended }

/-- The word is being replaced right now. -/
def isExpanding (p : Preprocessor) (name : String) : Bool :=
  (p.active :: p.suspended).any fun frame => frame.buffer.name? == some name

def tooDeep (p : Preprocessor) (pos : Position) : Token :=
  .invalid ("include and macro nesting exceeds " ++ toString p.maxDepth ++ " levels") pos

/-- The paths that an include may mean, in the order in which they are tried. -/
def candidates (p : Preprocessor) (path : String) (style : IncludeStyle) : List Path :=
  let dirs :=
    match style with
    | .quoted => p.active.directory :: p.includeDirs
    | .angled => p.includeDirs
  dirs.map (·.join ⟨path⟩)

/-- The first candidate that has a text. -/
def firstLoaded (load : Path → Option String) : List Path → Option (Path × String)
  | [] => none
  | path :: more =>
    match load path with
    | some text => some (path, text)
    | none => firstLoaded load more

/-- Goes on in an included file. -/
def insertFile (p : Preprocessor) (path : String) (style : IncludeStyle) (pos : Position) : Step :=
  if p.maxDepth ≤ p.depth then .token (p.tooDeep pos) p
  else
    let paths := p.candidates path style
    let p := { p with tried := p.tried ++ paths }
    match firstLoaded p.load paths with
    | none => .token (.invalid ("unable to read file '" ++ path ++ "'") pos) p
    | some (found, text) =>
      let buffer : Buffer := ⟨p.files.length, .file found, text⟩
      .silent (enter { p with files := p.files ++ [⟨found.text, text⟩] }
        (Frame.start buffer found.directory))

/-- Does what the directive asks for whose `#` stands at `pos` and has just been read. -/
def obey (p : Preprocessor) (pos : Position) : Step :=
  let reading := Directive.read p.active.rest
  let read := Text.before p.active.rest reading.rest
  let p := { p with active := p.active.passItem read reading.rest reading.newlines }
  match reading.outcome with
  | .error fault => .token (.invalid fault.message pos) p
  | .ok .nothing => .silent p
  | .ok (.define name body) => .silent (p.define name body)
  | .ok (.undefine name) => .silent { p with definitions := p.definitions.erase name }
  | .ok (.insert path style) => p.insertFile path style pos

/-- Goes on in the replacement of a word that has just been read, unless it is being replaced
already. -/
def replace (p : Preprocessor) (word : Token) (d : Definition) : Step :=
  if p.isExpanding word.lexeme then .token word p
  else if p.maxDepth ≤ p.depth then .token (p.tooDeep word.pos) p
  else .silent (p.enter (Frame.start d.replacement p.active.directory))

/-- Deals with a token that has just been read; `first` tells whether it is the first on its line. -/
def deliver (p : Preprocessor) (first : Bool) (t : Token) : Step :=
  if t.kind = .punct .hash then
    if first && p.active.buffer.isFile then p.obey t.pos
    else .token (.invalid "stray '#' in program" t.pos) p
  else if t.kind.isWord then
    match p.definitions.get? t.lexeme with
    | some d => p.replace t d
    | none => .token t p
  else .token t p

/-- The buffer being read has run out. -/
def leave (p : Preprocessor) : Step :=
  match p.suspended with
  | caller :: callers => .silent { p with active := caller, suspended := callers }
  | [] =>
    let frame := p.active.pass p.active.rest []
    .finish (.endOfFile (frame.position [])) { p with active := frame }

/-- Scans one item and deals with it. -/
def step (p : Preprocessor) : Step :=
  let (gap, rest) := Scan.gap p.active.rest
  let frame := p.active.passGap gap rest
  match Scan.item rest with
  | .finish => p.leave
  | .invalid c rest =>
    .token (.invalid ("unrecognized character '" ++ Text.visible c ++ "'") (frame.position [c]))
      { p with active := frame.passItem [c] rest }
  | .token kind lexeme rest =>
    deliver { p with active := frame.passItem lexeme rest } frame.fresh
      ⟨kind, String.ofList lexeme, frame.position lexeme⟩

end Preprocessor

end SmallC
