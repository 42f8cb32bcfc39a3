import SmallC.Preprocessor.Run
import SmallC.Proofs.Expansion.Expand

/-!
# The stack of buffers computes the recursion

Running the preprocessor until the buffer it reads has run out emits what expanding the pieces of that
buffer comes to, and leaves the suspended buffers alone. The induction is on the depth that is left and,
within one buffer, on its pieces. The words that are hidden are the names of the buffers on the stack.
-/
namespace SmallC.Preprocessor

open Expansion

/-- Steps that lead from one state to another and hand out the tokens. -/
inductive Emits : Preprocessor → List Token → Preprocessor → Prop where
  | refl (p : Preprocessor) : Emits p [] p
  | token {p q r : Preprocessor} {t : Token} {ts : List Token} (h : p.step = .token t q)
      (hq : Emits q ts r) : Emits p (t :: ts) r
  | silent {p q r : Preprocessor} {ts : List Token} (h : p.step = .silent q) (hq : Emits q ts r) :
      Emits p ts r

variable {p q r : Preprocessor} {load : Path → Option String} {settings : Settings}
  {hidden : List String} {depth : Nat} {directory : Path} {t : Table}

theorem Emits.trans {a b : List Token} (h : Emits p a q) (h' : Emits q b r) : Emits p (a ++ b) r := by
  induction h with
  | refl => exact h'
  | token hs _ ih => exact .token hs (ih h')
  | silent hs _ ih => exact .silent hs (ih h')

/-- A run hands out the tokens of its first steps and then those of the rest. -/
theorem Emits.run_eq {ts : List Token} (h : Emits p ts q) :
    p.run.1 = { q.run.1 with tokens := ts ++ q.run.1.tokens } := by
  induction h with
  | refl => rfl
  | token hs _ ih =>
    rw [Preprocessor.run_eq, hs]
    dsimp only
    rw [ih]
    rfl
  | silent hs _ ih =>
    rw [Preprocessor.run_eq, hs]
    exact ih

/-- Does what a directive asks for that has been read. -/
def carryOut (p : Preprocessor) (pos : Position) : Except Directive.Fault Directive → Step
  | .error fault => .token (.invalid fault.message pos) p
  | .ok .nothing => .silent p
  | .ok (.define name body) => .silent (p.define name body)
  | .ok (.undefine name) => .silent { p with definitions := p.definitions.erase name }
  | .ok (.insert path style) => p.insertFile path style pos

theorem step_of_none (h : p.active.piece? = none) : p.step = p.leave := by
  unfold Frame.piece? at h
  unfold step
  dsimp only at h ⊢
  cases hi : Scan.item (Scan.gap p.active.rest).2 with
  | finish => rfl
  | invalid c rest =>
    rw [hi] at h
    cases h
  | token kind lexeme rest =>
    rw [hi] at h
    dsimp only at h
    split at h
    · cases h
    · split at h <;> cases h

/-- A token is handed out, unless it is a defined word. -/
theorem step_of_token {w : Token} {g : Frame} (h : p.active.piece? = some (.token w, g)) :
    p.step =
      match (if w.kind.isWord then p.definitions.get? w.lexeme else none) with
      | some d => replace { p with active := g } w d
      | none => .token w { p with active := g } := by
  unfold Frame.piece? at h
  unfold step
  dsimp only at h ⊢
  cases hi : Scan.item (Scan.gap p.active.rest).2 with
  | finish =>
    rw [hi] at h
    cases h
  | invalid c rest =>
    rw [hi] at h
    obtain ⟨hw, rfl⟩ := Prod.mk.inj (Option.some.inj h)
    obtain rfl := Piece.token.inj hw
    rfl
  | token kind lexeme rest =>
    rw [hi] at h
    dsimp only at h ⊢
    split at h
    · next hk =>
      obtain ⟨hw, rfl⟩ := Prod.mk.inj (Option.some.inj h)
      obtain rfl := Piece.token.inj hw
      rw [deliver, if_neg hk]
      dsimp only
      split <;> rfl
    · next hk =>
      split at h
      · cases h
      · next hfresh =>
        obtain ⟨hw, rfl⟩ := Prod.mk.inj (Option.some.inj h)
        obtain rfl := Piece.token.inj hw
        rw [deliver, if_pos (not_not.1 hk)]
        exact if_neg hfresh

theorem step_of_directive {pos : Position} {outcome : Except Directive.Fault Directive} {g : Frame}
    (h : p.active.piece? = some (.directive pos outcome, g)) :
    p.step = carryOut { p with active := g } pos outcome := by
  unfold Frame.piece? at h
  unfold step
  dsimp only at h ⊢
  cases hi : Scan.item (Scan.gap p.active.rest).2 with
  | finish =>
    rw [hi] at h
    cases h
  | invalid c rest =>
    rw [hi] at h
    cases h
  | token kind lexeme rest =>
    rw [hi] at h
    dsimp only at h ⊢
    split at h
    · cases h
    · next hk =>
      split at h
      · next hfresh =>
        obtain ⟨hd, rfl⟩ := Prod.mk.inj (Option.some.inj h)
        obtain ⟨rfl, rfl⟩ := Piece.directive.inj hd
        rw [deliver, if_pos (not_not.1 hk)]
        refine (if_pos hfresh).trans ?_
        unfold obey carryOut
        rfl
      · cases h

/-- What the preprocessor knows is what the table says. -/
structure Holds (load : Path → Option String) (settings : Settings) (t : Table) (p : Preprocessor) :
    Prop where
  load : p.load = load
  includeDirs : p.includeDirs = settings.includeDirs
  maxDepth : p.maxDepth = settings.maxDepth
  registered : p.files.length = t.registered
  replacement : ∀ name, (p.definitions.get? name).map (·.replacement) = t.replacement name
  origin : ∀ name buffer, t.replacement name = some buffer → buffer.name? = some name

/-- Where the preprocessor stands: the depth, the directory of what it reads and the words that are
being replaced. -/
structure Stands (hidden : List String) (depth : Nat) (directory : Path) (p : Preprocessor) :
    Prop where
  depth : p.depth = depth
  directory : p.active.directory = directory
  hidden : ∀ name, p.isExpanding name = true ↔ name ∈ hidden

theorem Holds.define (h : Holds load settings t p) (name body : String) :
    Holds load settings (t.define name body) (p.define name body) := by
  refine ⟨h.load, h.includeDirs, h.maxDepth, ?_, ?_, ?_⟩
  · simp [Preprocessor.define, Table.define, h.registered]
  · intro other
    by_cases ho : other = name
    · subst ho
      rw [t.define_same, ← h.registered]
      exact congrArg _ (Definitions.get?_insert_same _ _)
    · rw [t.define_other body ho, ← h.replacement other]
      exact congrArg _ (Definitions.get?_insert_other _ _ ho)
  · intro other buffer hb
    by_cases ho : other = name
    · subst ho
      rw [t.define_same] at hb
      obtain rfl := Option.some.inj hb
      rfl
    · rw [t.define_other body ho] at hb
      exact h.origin other buffer hb

theorem Holds.undefine (h : Holds load settings t p) (name : String) :
    Holds load settings (t.undefine name) { p with definitions := p.definitions.erase name } := by
  refine ⟨h.load, h.includeDirs, h.maxDepth, h.registered, ?_, ?_⟩
  · intro other
    by_cases ho : other = name
    · subst ho
      rw [t.undefine_same, Definitions.get?_erase_same, Option.map_none]
    · rw [t.undefine_other ho, ← h.replacement other, Definitions.get?_erase_other _ ho]
  · intro other buffer hb
    by_cases ho : other = name
    · subst ho
      rw [t.undefine_same] at hb
      cases hb
    · rw [t.undefine_other ho] at hb
      exact h.origin other buffer hb

/-- Reading on in a buffer does not move to another place. -/
theorem Stands.readsOn (h : Stands hidden depth directory p) {g : Frame}
    (hg : p.active.ReadsOn g) (ha : q.active = g) (hq : q.suspended = p.suspended) :
    Stands hidden depth directory q := by
  refine ⟨?_, ?_, ?_⟩
  · rw [Preprocessor.depth, hq]
    exact h.depth
  · rw [ha, hg.directory, h.directory]
  · intro name
    rw [← h.hidden name, isExpanding, isExpanding, ha, hq, List.any_cons, List.any_cons, hg.buffer]

/-- In a buffer that is entered the words that are hidden are hidden still, and the word that the buffer
replaces with them. -/
theorem Stands.enter (h : Stands hidden depth directory p) (buffer : Buffer) (inner : Path) :
    Stands (buffer.name?.toList ++ hidden) (depth + 1) inner (p.enter (Frame.start buffer inner)) := by
  refine ⟨?_, rfl, ?_⟩
  · rw [← h.depth]
    rfl
  · intro name
    rw [List.mem_append, Option.mem_toList, ← h.hidden name]
    change (buffer.name? == some name || p.isExpanding name) = true ↔ _
    rw [Bool.or_eq_true, beq_iff_eq]

/-- The knowledge does not lie in the buffers being read. -/
theorem Holds.move (h : Holds load settings t p) (active : Frame) (suspended : List Frame)
    (tried : List Path) : Holds load settings t { p with active, suspended, tried } :=
  ⟨h.load, h.includeDirs, h.maxDepth, h.registered, h.replacement, h.origin⟩

theorem Holds.register (h : Holds load settings t p) (file : SourceFile) :
    Holds load settings t.register { p with files := p.files ++ [file] } := by
  refine ⟨h.load, h.includeDirs, h.maxDepth, ?_, h.replacement, h.origin⟩
  simp [Table.register, h.registered]

theorem Holds.lookup (h : Holds load settings t p) (w : Token) :
    t.lookup w =
      (if w.kind.isWord then p.definitions.get? w.lexeme else none).map (·.replacement) := by
  unfold Table.lookup
  split
  · exact (h.replacement w.lexeme).symm
  · rfl

/-- What is shown of every depth: a buffer runs out after the tokens that its pieces come to. -/
def ExpandsAt (load : Path → Option String) (settings : Settings) (depth : Nat) : Prop :=
  ∀ (hidden : List String) (directory : Path) (t : Table) (p : Preprocessor),
    Holds load settings t p → Stands hidden depth directory p →
    ∃ q, Emits p (expand load settings hidden depth directory p.active.pieces t).1 q ∧
      Holds load settings (expand load settings hidden depth directory p.active.pieces t).2 q ∧
      q.active.piece? = none ∧ p.active.ReadsOn q.active ∧ q.suspended = p.suspended

/-- A buffer that is entered is left for the one that was being read. -/
theorem ExpandsAt.enter (ih : ExpandsAt load settings depth) {buffer : Buffer} {inner : Path}
    (h : Holds load settings t (p.enter (Frame.start buffer inner)))
    (hs : Stands hidden depth inner (p.enter (Frame.start buffer inner))) :
    let r := expand load settings hidden depth inner (Frame.start buffer inner).pieces t
    ∃ q, Emits (p.enter (Frame.start buffer inner)) r.1 q ∧ Holds load settings r.2 q ∧
      q.active = p.active ∧ q.suspended = p.suspended := by
  intro r
  obtain ⟨q, hq, hh, hover, -, hsus⟩ := ih _ _ _ _ h hs
  have hstep : q.step = .silent { q with active := p.active, suspended := p.suspended } := by
    rw [step_of_none hover, leave, hsus]
    rfl
  refine ⟨{ q with active := p.active, suspended := p.suspended }, ?_, hh.move _ _ _, rfl, rfl⟩
  rw [← List.append_nil r.1]
  exact hq.trans (.silent hstep (.refl _))

/-- The table that a run starts with. -/
def startTable (settings : Settings) (files : List SourceFile) : Table :=
  settings.defines.foldl (fun t (name, body) => t.define name body) { registered := files.length + 1 }

theorem holds_start (load : Path → Option String) (settings : Settings) (files : List SourceFile)
    (path : Path) (text : String) :
    Holds load settings (startTable settings files) (start load settings files path text) := by
  have hfold : ∀ (defines : List (String × String)) (t : Table) (p : Preprocessor),
      Holds load settings t p →
      Holds load settings (defines.foldl (fun t (name, body) => t.define name body) t)
        (defines.foldl (fun p (name, body) => p.define name body) p) := by
    intro defines
    induction defines with
    | nil => exact fun t p h => h
    | cons d defines ih => exact fun t p h => ih _ _ (h.define d.1 d.2)
  unfold startTable start
  apply hfold
  refine ⟨rfl, rfl, rfl, ?_, fun name => rfl, fun name buffer hb => nomatch hb⟩
  rw [List.length_append]
  rfl

/-- Definitions do not move the preprocessor. -/
theorem foldl_define_frames (defines : List (String × String)) (p : Preprocessor) :
    (defines.foldl (fun p (name, body) => p.define name body) p).active = p.active ∧
      (defines.foldl (fun p (name, body) => p.define name body) p).suspended = p.suspended := by
  induction defines generalizing p with
  | nil => exact ⟨rfl, rfl⟩
  | cons d defines ih => exact ih (p.define d.1 d.2)

theorem start_active (load : Path → Option String) (settings : Settings) (files : List SourceFile)
    (path : Path) (text : String) :
    (start load settings files path text).active =
      Frame.start ⟨files.length, .file path, text⟩ path.directory :=
  (foldl_define_frames _ _).1

theorem start_suspended (load : Path → Option String) (settings : Settings)
    (files : List SourceFile) (path : Path) (text : String) :
    (start load settings files path text).suspended = [] :=
  (foldl_define_frames _ _).2

end SmallC.Preprocessor
