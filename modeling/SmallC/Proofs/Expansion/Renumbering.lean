import SmallC.Proofs.Expansion.Ending
import SmallC.Proofs.Relocation

/-!
# Buffers that are registered behind others

A buffer's number is its place among all that are registered, and nothing else about a run depends on what was
registered before it. A state in which `earlier` was registered first is the state of a run on its own with the
numbers of its buffers increased; one step keeps that, and so does a whole run.
-/
namespace SmallC

/-- The same place, with `n` more buffers registered before. -/
def Position.shift (n : Nat) (pos : Position) : Position :=
  { pos with buffer := pos.buffer + n }

def Buffer.shift (n : Nat) (b : Buffer) : Buffer :=
  { b with id := b.id + n }

def Frame.shift (n : Nat) (f : Frame) : Frame :=
  { f with buffer := f.buffer.shift n }

def Definition.shift (n : Nat) (d : Definition) : Definition :=
  { d with replacement := d.replacement.shift n }

namespace Definitions

def shift (n : Nat) (t : Definitions) : Definitions :=
  ⟨t.entries.map (Definition.shift n)⟩

theorem get?_shift (n : Nat) (t : Definitions) (name : String) :
    (t.shift n).get? name = (t.get? name).map (Definition.shift n) :=
  List.find?_map

theorem erase_shift (n : Nat) (t : Definitions) (name : String) :
    (t.shift n).erase name = (t.erase name).shift n :=
  congrArg Definitions.mk List.filter_map

theorem insert_shift (n : Nat) (t : Definitions) (d : Definition) :
    (t.shift n).insert (d.shift n) = (t.insert d).shift n :=
  congrArg (fun u : Definitions => Definitions.mk (d.shift n :: u.entries)) (erase_shift n t d.name)

end Definitions

/-- Where the pieces of a buffer stand goes by its number. -/
def Piece.shift (n : Nat) : Piece → Piece
  | token t => token (t.relocate (Position.shift n))
  | directive pos outcome => directive (pos.shift n) outcome

theorem Frame.piece?_shift (n : Nat) (f : Frame) :
    (f.shift n).piece? = f.piece?.map (Prod.map (Piece.shift n) (Frame.shift n)) := by
  have hrest : (f.shift n).rest = f.rest := rfl
  unfold piece?
  rw [hrest]
  dsimp only
  cases Scan.item (Scan.gap f.rest).2 with
  | finish => rfl
  | invalid c rest => rfl
  | token kind lexeme rest =>
    dsimp only
    split
    · rfl
    · split
      · next hfresh =>
        rw [if_pos]
        · rfl
        · exact hfresh
      · next hfresh =>
        rw [if_neg]
        · rfl
        · exact hfresh

namespace Preprocessor

/-- The state behind buffers that were registered earlier. -/
def behind (earlier : List SourceFile) (p : Preprocessor) : Preprocessor :=
  { p with
    active := p.active.shift earlier.length
    suspended := p.suspended.map (Frame.shift earlier.length)
    definitions := p.definitions.shift earlier.length
    files := earlier ++ p.files }

def Step.behind (earlier : List SourceFile) : Step → Step
  | token t next => token (t.relocate (Position.shift earlier.length)) (next.behind earlier)
  | silent next => silent (next.behind earlier)
  | finish t last => finish (t.relocate (Position.shift earlier.length)) (last.behind earlier)

variable (earlier : List SourceFile) (p : Preprocessor)

theorem depth_behind : (p.behind earlier).depth = p.depth :=
  List.length_map _

/-- The next buffer to be registered is renumbered as all are. -/
theorem next_id_behind : (p.behind earlier).files.length = p.files.length + earlier.length := by
  rw [behind, List.length_append, Nat.add_comm]

theorem isExpanding_behind (name : String) :
    (p.behind earlier).isExpanding name = p.isExpanding name := by
  exact List.any_map (l := p.active :: p.suspended) (f := Frame.shift earlier.length)

theorem define_behind (name body : String) :
    (p.behind earlier).define name body = (p.define name body).behind earlier := by
  unfold define
  rw [next_id_behind]
  unfold behind
  dsimp only
  rw [List.append_assoc, ← Definitions.insert_shift]
  rfl

theorem insertFile_behind (path : String) (style : IncludeStyle) (pos : Position) :
    (p.behind earlier).insertFile path style (pos.shift earlier.length) =
      (p.insertFile path style pos).behind earlier := by
  have hpaths : (p.behind earlier).candidates path style = p.candidates path style := rfl
  have hload : (p.behind earlier).load = p.load := rfl
  have hlimit : (p.behind earlier).maxDepth = p.maxDepth := rfl
  unfold insertFile
  rw [depth_behind, hpaths, hlimit]
  split
  · rfl
  · dsimp only
    rw [hload, next_id_behind]
    cases firstLoaded p.load (p.candidates path style) with
    | none => rfl
    | some found =>
      obtain ⟨path, text⟩ := found
      unfold enter Step.behind behind
      dsimp only
      rw [List.append_assoc]
      rfl

theorem carryOut_behind (pos : Position) (outcome : Except Directive.Fault Directive) :
    (p.behind earlier).carryOut (pos.shift earlier.length) outcome =
      (p.carryOut pos outcome).behind earlier := by
  cases outcome with
  | error fault => rfl
  | ok d =>
    cases d with
    | nothing => rfl
    | define name body => exact congrArg Step.silent (define_behind earlier p name body)
    | undefine name =>
      refine congrArg Step.silent ?_
      unfold behind
      dsimp only
      rw [Definitions.erase_shift]
    | insert path style => exact insertFile_behind earlier p path style pos

theorem replace_behind (word : Token) (d : Definition) :
    (p.behind earlier).replace (word.relocate (Position.shift earlier.length)) (d.shift earlier.length) =
      (p.replace word d).behind earlier := by
  have hlimit : (p.behind earlier).maxDepth = p.maxDepth := rfl
  have hlexeme : (word.relocate (Position.shift earlier.length)).lexeme = word.lexeme := rfl
  unfold replace
  rw [depth_behind, hlexeme, isExpanding_behind, hlimit]
  split
  · rfl
  · split <;> rfl

theorem leave_behind : (p.behind earlier).leave = p.leave.behind earlier := by
  unfold leave behind
  dsimp only
  cases p.suspended with
  | nil => rfl
  | cons caller callers => rfl

/-- One step does the same behind other buffers. -/
theorem step_behind : (p.behind earlier).step = p.step.behind earlier := by
  have hpiece := p.active.piece?_shift earlier.length
  cases hx : p.active.piece? with
  | none =>
    rw [hx] at hpiece
    rw [step_of_none hx, step_of_none (p := p.behind earlier) hpiece]
    exact leave_behind earlier p
  | some x =>
    obtain ⟨piece, g⟩ := x
    rw [hx] at hpiece
    cases piece with
    | directive pos outcome =>
      rw [step_of_directive hx, step_of_directive (p := p.behind earlier) hpiece]
      exact carryOut_behind earlier { p with active := g } pos outcome
    | token w =>
      have hkind : (w.relocate (Position.shift earlier.length)).kind = w.kind := rfl
      have hlexeme : (w.relocate (Position.shift earlier.length)).lexeme = w.lexeme := rfl
      have hget : (p.behind earlier).definitions.get? w.lexeme =
          (p.definitions.get? w.lexeme).map (Definition.shift earlier.length) :=
        Definitions.get?_shift ..
      rw [step_of_token hx, step_of_token (p := p.behind earlier) hpiece, hkind, hlexeme, hget]
      cases w.kind.isWord with
      | false => rfl
      | true =>
        cases p.definitions.get? w.lexeme with
        | none => rfl
        | some d => exact replace_behind earlier { p with active := g } w d

theorem run_behind :
    (p.behind earlier).run =
      (p.run.1.relocate (Position.shift earlier.length), p.run.2.behind earlier) := by
  induction p using step_induction with
  | token p t q hs ih =>
    rw [run_eq (p.behind earlier), step_behind, run_eq p, hs]
    dsimp only [Step.behind]
    rw [ih]
    rfl
  | silent p q hs ih =>
    rw [run_eq (p.behind earlier), step_behind, run_eq p, hs]
    exact ih
  | finish p t q hs =>
    rw [run_eq (p.behind earlier), step_behind, run_eq p, hs]
    rfl

theorem foldl_define_behind (defines : List (String × String)) :
    defines.foldl (fun p (name, body) => p.define name body) (p.behind earlier) =
      (defines.foldl (fun p (name, body) => p.define name body) p).behind earlier := by
  induction defines generalizing p with
  | nil => rfl
  | cons d defines ih =>
    have hdefine := define_behind earlier p d.1 d.2
    rw [List.foldl_cons, List.foldl_cons, ← ih]
    exact congrArg (defines.foldl _) hdefine

theorem start_behind (load : Path → Option String) (settings : Settings) (path : Path) (text : String) :
    start load settings earlier path text = (start load settings [] path text).behind earlier := by
  unfold start
  dsimp only
  rw [← foldl_define_behind]
  unfold behind
  simp only [Frame.shift, Frame.start, Buffer.shift, List.length_nil, Nat.zero_add]
  rfl

end Preprocessor

end SmallC
