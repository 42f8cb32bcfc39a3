import Mathlib
import SmallC.Proofs.Expansion.Ending
import SmallC.Proofs.Places

/-!
# Tokens stand where they say

A token is shown for an item that was scanned in some buffer, and its position is that of the item. The
buffer is registered and the frame that reads it is in step with its text, `Preprocessor.Grounded`; both are
kept by every step. What a step can do to the state is said once, by `Preprocessor.Follows`.
-/
namespace SmallC

theorem Scan.item_hash {cs lexeme rest : List Char}
    (h : Scan.item cs = .token (.punct .hash) lexeme rest) : lexeme = ['#'] := by
  unfold Scan.item at h
  split at h
  · cases h
  · split at h
    · next ht =>
      cases h
      unfold Scan.token? at ht
      split at ht
      · -- a word is no sign
        next word tail _ =>
        obtain ⟨hk, -⟩ := Prod.mk.inj (Option.some.inj ht)
        unfold Kind.ofWord at hk
        split at hk
        · cases hk
        · split at hk <;> cases hk
      · split at ht
        · cases ht
        · cases ht
        · split at ht
          · cases ht
          · obtain ⟨p, -, hp⟩ := Option.map_eq_some_iff.1 ht
            obtain ⟨hk, hrest⟩ := Prod.mk.inj hp
            obtain ⟨hl, -⟩ := Prod.mk.inj hrest
            obtain rfl := Kind.punct.inj hk
            exact hl.symm
    · cases h

theorem Scan.item_finish_eq {cs : List Char} (h : Scan.item cs = .finish) : cs = [] := by
  unfold Scan.item at h
  split at h
  · rfl
  · split at h <;> cases h

/-- The text of the buffer is registered under its number. -/
def Buffer.Registered (b : Buffer) (files : List SourceFile) : Prop :=
  ∃ file, files[b.id]? = some file ∧ file.text = b.text

theorem Buffer.Registered.mono {b : Buffer} {files more : List SourceFile} (h : b.Registered files)
    (hm : files <+: more) : b.Registered more := by
  obtain ⟨file, hfile, htext⟩ := h
  obtain ⟨later, rfl⟩ := hm
  refine ⟨file, ?_, htext⟩
  rw [List.getElem?_append_left (List.getElem?_eq_some_iff.1 hfile).1, hfile]

theorem Buffer.registered_last (files : List SourceFile) (origin : Origin) (name text : String) :
    Buffer.Registered ⟨files.length, origin, text⟩ (files ++ [⟨name, text⟩]) :=
  ⟨⟨name, text⟩, List.getElem?_concat_length, rfl⟩

namespace Frame

variable {f g : Frame}

/-- The frame in front of the next item. -/
def atItem (f : Frame) : Frame :=
  f.passGap (Scan.gap f.rest).1 (Scan.gap f.rest).2

def item (f : Frame) : Scan.Item :=
  Scan.item f.atItem.rest

theorem InStep.atItem (h : f.InStep) : f.atItem.InStep :=
  h.passGap (Scan.gap_eq f.rest)

/-- A frame in step with a registered text knows the place of what stands in front of it. -/
theorem InStep.position_liesIn (h : f.InStep) {file : SourceFile} (ht : file.text = f.buffer.text)
    {spanned rest : List Char} (hr : f.rest = spanned ++ rest) :
    (f.position spanned).LiesIn file ∧ file.slice (f.position spanned).span = .ofList spanned := by
  obtain ⟨read, htext, hoffset, hline⟩ := h
  have hcut : file.text.toList = read ++ spanned ++ rest := by rw [ht, htext, hr, List.append_assoc]
  unfold position
  rw [hoffset, hline]
  exact ⟨Position.liesIn_of_append hcut _, SourceFile.slice_eq hcut⟩

/-- Directives are read from files only. -/
theorem isFile_of_directive {pos : Position} {outcome : Except Directive.Fault Directive}
    (h : f.piece? = some (.directive pos outcome, g)) : f.buffer.isFile = true := by
  unfold piece? at h
  dsimp only at h
  split at h
  · cases h
  · cases h
  · split at h
    · cases h
    · split at h
      · next hplace => exact (Bool.and_eq_true_iff.1 hplace).2
      · cases h

end Frame

namespace Preprocessor

variable {p q r : Preprocessor} {t : Token}

/-- What one step can make of a state. -/
inductive Follows (p : Preprocessor) : Preprocessor → Prop where
  | resume {caller : Frame} {callers : List Frame} (h : p.suspended = caller :: callers) :
      Follows p { p with active := caller, suspended := callers }
  | readOn {g : Frame} (h : p.active.ReadsOn g) (tried : List Path) :
      Follows p { p with active := g, tried }
  | define {g : Frame} (h : p.active.ReadsOn g) (file : p.active.buffer.isFile = true)
      (name body : String) : Follows p (define { p with active := g } name body)
  | undefine {g : Frame} (h : p.active.ReadsOn g) (file : p.active.buffer.isFile = true)
      (name : String) :
      Follows p { p with active := g, definitions := p.definitions.erase name }
  | insert {g : Frame} (h : p.active.ReadsOn g) (file : p.active.buffer.isFile = true)
      (room : p.depth < p.maxDepth) (path : Path) (text : String) (tried : List Path) :
      Follows p (enter { p with active := g, tried, files := p.files ++ [⟨path.text, text⟩] }
        (Frame.start ⟨p.files.length, .file path, text⟩ path.directory))
  | replace {g : Frame} (h : p.active.ReadsOn g) {name : String} {d : Definition}
      (defined : p.definitions.get? name = some d) (free : p.isExpanding name = false)
      (room : p.depth < p.maxDepth) :
      Follows p (enter { p with active := g } (Frame.start d.replacement g.directory))

/-- The state that a step leaves. -/
def Step.after : Step → Preprocessor
  | .token _ q => q
  | .silent q => q
  | .finish _ q => q

theorem follows_replace {g : Frame} (h : p.active.ReadsOn g) {w : Token} {d : Definition}
    (hd : p.definitions.get? w.lexeme = some d) :
    p.Follows (replace { p with active := g } w d).after := by
  have hsame : isExpanding { p with active := g } w.lexeme = p.isExpanding w.lexeme := by
    rw [isExpanding, isExpanding, List.any_cons, List.any_cons, h.buffer]
  unfold replace
  split
  · exact .readOn h p.tried
  · next hfree =>
    split
    · exact .readOn h p.tried
    · next hroom =>
      rw [hsame] at hfree
      exact .replace h hd (Bool.eq_false_iff.2 hfree) (Nat.lt_of_not_le hroom)

theorem follows_insertFile {g : Frame} (h : p.active.ReadsOn g)
    (hf : p.active.buffer.isFile = true) (path : String) (style : IncludeStyle) (pos : Position) :
    p.Follows (insertFile { p with active := g } path style pos).after := by
  unfold insertFile
  split
  · exact .readOn h p.tried
  · next hroom =>
    dsimp only
    split
    · exact .readOn h _
    · exact .insert h hf (Nat.lt_of_not_le hroom) _ _ _

theorem follows_carryOut {g : Frame} (h : p.active.ReadsOn g) (hf : p.active.buffer.isFile = true)
    (pos : Position) (outcome : Except Directive.Fault Directive) :
    p.Follows (carryOut { p with active := g } pos outcome).after := by
  rcases outcome with fault | d
  · exact .readOn h p.tried
  · cases d with
    | insert path style => exact follows_insertFile h hf path style pos
    | define name body => exact .define h hf name body
    | undefine name => exact .undefine h hf name
    | nothing => exact .readOn h p.tried

theorem follows_leave (p : Preprocessor) : p.Follows p.leave.after := by
  unfold leave
  split
  · next hs => exact .resume hs
  · have hon : p.active.ReadsOn (p.active.pass p.active.rest []) :=
      ⟨rfl, rfl, fun hstep => hstep.pass (List.append_nil _).symm⟩
    exact .readOn hon p.tried

theorem follows_step (p : Preprocessor) : p.Follows p.step.after := by
  cases hx : p.active.piece? with
  | none =>
    rw [step_of_none hx]
    exact p.follows_leave
  | some x =>
    obtain ⟨piece, g⟩ := x
    have hon := (Frame.piece?_readsOn hx).1
    cases piece with
    | directive pos outcome =>
      rw [step_of_directive hx]
      exact follows_carryOut hon (Frame.isFile_of_directive hx) pos outcome
    | token w =>
      rw [step_of_token hx]
      cases hd : (if w.kind.isWord then p.definitions.get? w.lexeme else none) with
      | none => exact .readOn hon p.tried
      | some d =>
        split at hd
        · exact follows_replace hon hd
        · cases hd

theorem follows_of_token (h : p.step = .token t q) : p.Follows q := by
  have hfollows := p.follows_step
  rwa [h] at hfollows

theorem follows_of_silent (h : p.step = .silent q) : p.Follows q := by
  have hfollows := p.follows_step
  rwa [h] at hfollows

theorem follows_of_finish (h : p.step = .finish t q) : p.Follows q := by
  have hfollows := p.follows_step
  rwa [h] at hfollows

theorem Follows.files_prefix (h : p.Follows q) : p.files <+: q.files := by
  cases h with
  | resume | readOn | undefine | replace => exact List.prefix_rfl
  | define | insert => exact List.prefix_append _ _

/-- Every frame is in step with its text, and the texts of the frames and of the definitions are
registered. -/
structure Grounded (p : Preprocessor) : Prop where
  frames : ∀ f ∈ p.active :: p.suspended, f.InStep ∧ f.buffer.Registered p.files
  definitions : ∀ d ∈ p.definitions.entries, d.replacement.Registered p.files

theorem Grounded.readOn (h : p.Grounded) {g : Frame} (hg : p.active.ReadsOn g) :
    ∀ f ∈ g :: p.suspended, f.InStep ∧ f.buffer.Registered p.files := by
  obtain ⟨hactive, hsuspended⟩ := List.forall_mem_cons.1 h.frames
  refine List.forall_mem_cons.2 ⟨⟨hg.inStep hactive.1, ?_⟩, hsuspended⟩
  rw [hg.buffer]
  exact hactive.2

/-- A definition is registered as it is made. -/
theorem Grounded.define (h : p.Grounded) (name body : String) : (p.define name body).Grounded := by
  have hmore : p.files <+: (p.define name body).files := List.prefix_append _ _
  refine ⟨fun f hf => ⟨(h.frames f hf).1, (h.frames f hf).2.mono hmore⟩, fun d hd => ?_⟩
  rcases List.mem_cons.1 hd with rfl | hd
  · exact Buffer.registered_last ..
  · exact (h.definitions d (List.mem_filter.1 hd).1).mono hmore

theorem Grounded.follows (h : p.Grounded) (hq : p.Follows q) : q.Grounded := by
  have hmore := hq.files_prefix
  cases hq with
  | resume hs =>
    refine ⟨fun f hf => h.frames f (List.mem_cons_of_mem _ ?_), h.definitions⟩
    rw [hs]
    exact hf
  | readOn hg => exact ⟨h.readOn hg, h.definitions⟩
  | @define g hg _ name body =>
    have hread : Grounded { p with active := g } := ⟨h.readOn hg, h.definitions⟩
    exact hread.define name body
  | undefine hg => exact ⟨h.readOn hg, fun d hd => h.definitions d (List.mem_filter.1 hd).1⟩
  | insert hg =>
    refine ⟨List.forall_mem_cons.2 ⟨⟨Frame.inStep_start .., Buffer.registered_last ..⟩, fun f hf => ?_⟩,
      fun d hd => (h.definitions d hd).mono hmore⟩
    obtain ⟨hstep, hregistered⟩ := h.readOn hg f hf
    exact ⟨hstep, hregistered.mono hmore⟩
  | replace hg hd =>
    have hd := h.definitions _ (List.mem_of_find?_eq_some hd)
    exact ⟨List.forall_mem_cons.2 ⟨⟨Frame.inStep_start .., hd⟩, h.readOn hg⟩, h.definitions⟩

/-- The buffer that a run started with. -/
def mainBuffer (p : Preprocessor) : Buffer :=
  (p.suspended.getLastD p.active).buffer

theorem getLastD_readsOn {f g : Frame} (h : f.ReadsOn g) (callers : List Frame) :
    (callers.getLastD g).buffer = (callers.getLastD f).buffer := by
  cases callers with
  | nil => exact h.buffer
  | cons caller callers => rw [List.getLastD_cons, List.getLastD_cons]

/-- The first buffer stays at the bottom. -/
theorem Follows.mainBuffer_eq (h : p.Follows q) : q.mainBuffer = p.mainBuffer := by
  unfold mainBuffer
  cases h with
  | resume hs => rw [hs, List.getLastD_cons]
  | readOn hg | define hg | undefine hg => exact getLastD_readsOn hg p.suspended
  | insert hg | replace hg =>
    unfold enter
    rw [List.getLastD_cons]
    exact getLastD_readsOn hg p.suspended

/-- What a state shows, by the item that it scans, and the text that stands for it: a token as it is
written, one character that starts no token, the `#` of a directive that is rejected or that stands
elsewhere, a word that would be replaced too deeply, or nothing at the end. -/
inductive Shows (p : Preprocessor) (t : Token) : String → Prop where
  | plain {kind : Kind} {lexeme rest : List Char} (scanned : p.active.item = .token kind lexeme rest)
      (sign : kind ≠ .punct .hash) (same : t.kind = kind) (whole : t.lexeme = .ofList lexeme) :
      Shows p t t.lexeme
  | character {c : Char} {rest : List Char} (scanned : p.active.item = .invalid c rest)
      (bad : t.kind = .invalid)
      (message : t.lexeme = "unrecognized character '" ++ Text.visible c ++ "'") :
      Shows p t (.singleton c)
  | directive {lexeme rest : List Char} (scanned : p.active.item = .token (.punct .hash) lexeme rest)
      (first : p.active.atItem.fresh = true) (file : p.active.buffer.isFile = true)
      (bad : t.kind = .invalid) : Shows p t "#"
  | stray {lexeme rest : List Char} (scanned : p.active.item = .token (.punct .hash) lexeme rest)
      (place : (p.active.atItem.fresh && p.active.buffer.isFile) = false) (bad : t.kind = .invalid)
      (message : t.lexeme = "stray '#' in program") : Shows p t "#"
  | tooDeep {kind : Kind} {lexeme rest : List Char} (scanned : p.active.item = .token kind lexeme rest)
      (word : kind.isWord = true) (bad : t.kind = .invalid) (deep : p.maxDepth ≤ p.depth)
      (message : t.lexeme = (p.tooDeep t.pos).lexeme) : Shows p t (.ofList lexeme)
  | ending (scanned : p.active.item = .finish) (outermost : p.suspended = [])
      (mark : t.kind = .endOfFile) : Shows p t ""

/-- What is neither a complaint nor the end stands for itself. -/
theorem Shows.eq_lexeme {spanned : String} (h : p.Shows t spanned) (hvalid : t.kind ≠ .invalid)
    (hend : t.kind ≠ .endOfFile) : spanned = t.lexeme := by
  cases h with
  | plain => rfl
  | character _ bad | directive _ _ _ bad | stray _ _ bad | tooDeep _ _ bad => exact absurd bad hvalid
  | ending _ _ mark => exact absurd mark hend

/-- The step shows a token at the place of the item that was scanned. -/
def Step.ShowsItem (p : Preprocessor) : Step → Prop
  | .token t _ | .finish t _ =>
    ∃ spanned rest, p.active.atItem.rest = spanned ++ rest ∧
      t.pos = p.active.atItem.position spanned ∧ p.Shows t (.ofList spanned)
  | .silent _ => True

/-- What the step shows, if anything, is a complaint at the position. -/
def Step.Complains (pos : Position) : Step → Prop
  | .token t _ => t.kind = .invalid ∧ t.pos = pos
  | .silent _ => True
  | .finish _ _ => False

theorem insertFile_complains (p : Preprocessor) (path : String) (style : IncludeStyle)
    (pos : Position) : (p.insertFile path style pos).Complains pos := by
  unfold insertFile
  split
  · exact ⟨rfl, rfl⟩
  · dsimp only
    split
    · exact ⟨rfl, rfl⟩
    · trivial

theorem obey_complains (p : Preprocessor) (pos : Position) : (p.obey pos).Complains pos := by
  unfold obey
  dsimp only
  split
  · exact ⟨rfl, rfl⟩
  · trivial
  · trivial
  · trivial
  · exact insertFile_complains ..

theorem leave_showsItem (hi : p.active.item = .finish) : p.leave.ShowsItem p := by
  have hrest : p.active.atItem.rest = [] := Scan.item_finish_eq hi
  have hgap : (Scan.gap p.active.rest).1 = p.active.rest := by
    conv_rhs => rw [Scan.gap_eq p.active.rest]
    rw [show (Scan.gap p.active.rest).2 = [] from hrest, List.append_nil]
  unfold leave
  split
  · trivial
  · next hs =>
    refine ⟨[], [], hrest, ?_, .ending hi hs rfl⟩
    unfold Frame.atItem
    rw [hgap]
    rfl

/-- What is dealt with as it was read is shown at its place. -/
theorem deliver_showsItem {kind : Kind} {lexeme rest : List Char} {g : Frame}
    (hi : p.active.item = .token kind lexeme rest) (hg : g.buffer = p.active.buffer) :
    (deliver { p with active := g } p.active.atItem.fresh
      ⟨kind, .ofList lexeme, p.active.atItem.position lexeme⟩).ShowsItem p := by
  have hcut : p.active.atItem.rest = lexeme ++ rest := Scan.item_token_eq hi
  have hplain (hk : kind ≠ .punct .hash) : p.Shows
      ⟨kind, .ofList lexeme, p.active.atItem.position lexeme⟩ (.ofList lexeme) :=
    .plain hi hk rfl rfl
  unfold deliver
  dsimp only
  split
  · next hk =>
    subst hk
    have hhash : String.ofList lexeme = "#" := by rw [Scan.item_hash hi]
    rw [hg]
    split
    · next hplace =>
      obtain ⟨hfirst, hfile⟩ := Bool.and_eq_true_iff.1 hplace
      have hcomplains := obey_complains { p with active := g } (p.active.atItem.position lexeme)
      cases hs : obey { p with active := g } (p.active.atItem.position lexeme) with
      | silent q => trivial
      | finish t q =>
        rw [hs] at hcomplains
        exact hcomplains.elim
      | token t q =>
        rw [hs] at hcomplains
        refine ⟨lexeme, rest, hcut, hcomplains.2, ?_⟩
        rw [hhash]
        exact .directive hi hfirst hfile hcomplains.1
    · next hplace =>
      refine ⟨lexeme, rest, hcut, rfl, ?_⟩
      rw [hhash]
      exact .stray hi (Bool.eq_false_iff.2 hplace) rfl rfl
  · next hk =>
    split
    · next hword =>
      split
      · unfold replace
        split
        · exact ⟨lexeme, rest, hcut, rfl, hplain hk⟩
        · split
          · next hdeep => exact ⟨lexeme, rest, hcut, rfl, .tooDeep hi hword rfl hdeep rfl⟩
          · trivial
      · exact ⟨lexeme, rest, hcut, rfl, hplain hk⟩
    · exact ⟨lexeme, rest, hcut, rfl, hplain hk⟩

theorem step_showsItem (p : Preprocessor) : p.step.ShowsItem p := by
  unfold step
  dsimp only
  cases hi : p.active.item with
  | finish =>
    rw [show Scan.item (Scan.gap p.active.rest).2 = .finish from hi]
    exact leave_showsItem hi
  | invalid c rest =>
    rw [show Scan.item (Scan.gap p.active.rest).2 = .invalid c rest from hi]
    exact ⟨[c], rest, Scan.item_invalid_eq hi, rfl, .character hi rfl rfl⟩
  | token kind lexeme rest =>
    rw [show Scan.item (Scan.gap p.active.rest).2 = .token kind lexeme rest from hi]
    exact deliver_showsItem hi rfl

/-- What every step keeps is kept by steps that show something or nothing. -/
theorem Emits.keeps {P : Preprocessor → Prop} (hP : ∀ p q, p.Follows q → P p → P q)
    {ts : List Token} (h : Emits p ts q) (hp : P p) : P q := by
  induction h with
  | refl => exact hp
  | token hs _ ih => exact ih (hP _ _ (follows_of_token hs) hp)
  | silent hs _ ih => exact ih (hP _ _ (follows_of_silent hs) hp)

theorem Returns.keeps {P : Preprocessor → Prop} (hP : ∀ p q, p.Follows q → P p → P q)
    (h : p.Returns t q) (hp : P p) : P q := by
  obtain ⟨r, hr, hs | hs⟩ := h
  · exact hP r q (follows_of_token hs) (hr.keeps hP hp)
  · exact hP r q (follows_of_finish hs) (hr.keeps hP hp)

/-- What every step keeps is kept by any number of calls. -/
theorem calls_keeps {P : Preprocessor → Prop} (hP : ∀ p q, p.Follows q → P p → P q) (hp : P p)
    (n : Nat) : P (p.calls n).2 := by
  induction n generalizing p with
  | zero => exact hp
  | succ n ih => exact ih (p.returns_next.keeps hP hp)

/-- A grounded state shows tokens that lie in registered text. -/
theorem Grounded.step_liesIn (h : p.Grounded) (hs : p.step = .token t q ∨ p.step = .finish t q) :
    ∃ file, q.files[t.pos.buffer]? = some file ∧ t.pos.LiesIn file ∧
      p.Shows t (file.slice t.pos.span) := by
  have hshown : ∃ spanned rest, p.active.atItem.rest = spanned ++ rest ∧
      t.pos = p.active.atItem.position spanned ∧ p.Shows t (.ofList spanned) := by
    have hitem := p.step_showsItem
    rcases hs with hs | hs <;> rwa [hs] at hitem
  have hfollows : p.Follows q := hs.elim follows_of_token follows_of_finish
  obtain ⟨spanned, rest, hcut, hpos, hshows⟩ := hshown
  obtain ⟨hstep, hregistered⟩ := h.frames p.active List.mem_cons_self
  obtain ⟨file, hfile, htext⟩ := hregistered.mono hfollows.files_prefix
  obtain ⟨hlies, hslice⟩ := hstep.atItem.position_liesIn htext hcut
  rw [← hslice] at hshows
  rw [hpos]
  exact ⟨file, hfile, hlies, hpos ▸ hshows⟩

/-- What is registered stays registered to the end of a run. -/
theorem files_prefix_run (p : Preprocessor) : p.files <+: p.run.2.files := by
  have hkeeps := calls_keeps (P := (p.files <+: files ·)) (fun _ _ hq hp => hp.trans hq.files_prefix)
    List.prefix_rfl p.run.1.toList.length
  rwa [calls_run] at hkeeps

/-- All tokens of a run lie in text that is registered in the end. -/
theorem Grounded.run_liesIn (h : p.Grounded) :
    ∀ t ∈ p.run.1.toList, ∃ file, p.run.2.files[t.pos.buffer]? = some file ∧ t.pos.LiesIn file := by
  induction p using step_induction with
  | token p t q hs ih =>
    obtain ⟨file, hfile, hlies, -⟩ := h.step_liesIn (.inl hs)
    -- the buffer of the token keeps its number while others are registered
    obtain ⟨later, hlater⟩ := q.files_prefix_run
    have hmore := ih (h.follows (follows_of_token hs))
    rw [run_eq, hs]
    refine List.forall_mem_cons.2 ⟨⟨file, ?_, hlies⟩, hmore⟩
    dsimp only
    rw [← hlater, List.getElem?_append_left (List.getElem?_eq_some_iff.1 hfile).1, hfile]
  | silent p q hs ih =>
    rw [run_eq, hs]
    exact ih (h.follows (follows_of_silent hs))
  | finish p t q hs =>
    obtain ⟨file, hfile, hlies, -⟩ := h.step_liesIn (.inr hs)
    rw [run_eq, hs]
    exact List.forall_mem_singleton.2 ⟨file, hfile, hlies⟩

/-- What holds of every state of a run that starts with the file. -/
structure Runs (files : List SourceFile) (path : Path) (text : String) (p : Preprocessor) : Prop where
  grounded : p.Grounded
  main : p.mainBuffer = ⟨files.length, .file path, text⟩
  registered : files ++ [⟨path.text, text⟩] <+: p.files

variable {files : List SourceFile} {path : Path} {text : String}

theorem Runs.follows (hq : p.Follows q) (h : Runs files path text p) : Runs files path text q :=
  ⟨h.grounded.follows hq, hq.mainBuffer_eq.trans h.main, h.registered.trans hq.files_prefix⟩

theorem runs_start (load : Path → Option String) (settings : Settings) (files : List SourceFile)
    (path : Path) (text : String) : Runs files path text (start load settings files path text) := by
  have hfold : ∀ (defines : List (String × String)) (p : Preprocessor), Runs files path text p →
      Runs files path text (defines.foldl (fun p d => p.define d.1 d.2) p) := by
    intro defines
    induction defines with
    | nil => exact fun p h => h
    | cons d defines ih =>
      exact fun p h => ih _ ⟨h.grounded.define d.1 d.2, h.main, h.registered.trans (List.prefix_append _ _)⟩
  unfold start
  refine hfold settings.defines _ ⟨⟨fun f hf => ?_, fun d hd => absurd hd List.not_mem_nil⟩, rfl, List.prefix_rfl⟩
  obtain rfl := List.mem_singleton.1 hf
  exact ⟨Frame.inStep_start .., Buffer.registered_last ..⟩

/-- The mark of the end stands at the end of the first buffer. -/
theorem Runs.finish (h : Runs files path text p) (hs : p.step = .finish t q) :
    let main : SourceFile := ⟨path.text, text⟩
    let size := text.utf8ByteSize
    q.files[t.pos.buffer]? = some main ∧
      t.pos = ⟨files.length, main.newlinesBefore size, ⟨size, size⟩⟩ := by
  intro main size
  obtain ⟨hsuspended, rfl, rfl⟩ := step_finish hs
  have hsize : Text.size text.toList = size := by
    rw [Text.size_eq_utf8ByteSize, String.ofList_toList]
  have hlines : main.newlinesBefore size = Text.lines text.toList := by
    rw [← hsize]
    exact SourceFile.newlinesBefore_eq (List.append_nil _).symm
  have hbuffer : p.active.buffer = ⟨files.length, .file path, text⟩ := by
    rw [← h.main, mainBuffer, hsuspended]
    rfl
  have hpos := (h.grounded.frames p.active List.mem_cons_self).1.ending
  rw [hbuffer, hsize, ← hlines] at hpos
  refine ⟨?_, hpos⟩
  obtain ⟨later, hlater⟩ := h.registered
  change p.files[p.active.buffer.id]? = some main
  rw [hbuffer, ← hlater, List.append_assoc, List.getElem?_append_right (Nat.le_refl _), Nat.sub_self]
  rfl

/-- Every call hands back a token that lies in the text of a registered buffer, between two characters, on the
line that its newlines say, and shows what stands there. The mark of the end stands behind all of the first
buffer. -/
theorem tokens_lie_in_text (load : Path → Option String) (settings : Settings)
    (files : List SourceFile) (path : Path) (text : String) (n : Nat) :
    let main : SourceFile := ⟨path.text, text⟩
    let size := text.utf8ByteSize
    let p := ((start load settings files path text).calls n).2
    let t := p.next.1
    let q := p.next.2
    ∃ r file, Emits p [] r ∧ (r.step = .token t q ∨ r.step = .finish t q) ∧
      q.files[t.pos.buffer]? = some file ∧ t.pos.LiesIn file ∧ r.Shows t (file.slice t.pos.span) ∧
      (t.kind ≠ .invalid → t.kind ≠ .endOfFile → file.slice t.pos.span = t.lexeme) ∧
      (t.kind = .endOfFile →
        file = main ∧ t.pos = ⟨files.length, main.newlinesBefore size, ⟨size, size⟩⟩) := by
  intro main size p t q
  obtain ⟨r, hr, hs⟩ := p.returns_next
  have hrun : Runs files path text r :=
    hr.keeps (fun _ _ => Runs.follows) (calls_keeps (fun _ _ => Runs.follows) (runs_start ..) n)
  obtain ⟨file, hfile, hlies, hshows⟩ := hrun.grounded.step_liesIn hs
  refine ⟨r, file, hr, hs, hfile, hlies, hshows, hshows.eq_lexeme, fun hend => ?_⟩
  obtain ⟨hmain, hpos⟩ := hrun.finish (hs.resolve_left fun hs => kind_of_step_token hs hend)
  exact ⟨Option.some.inj (hfile.symm.trans hmain), hpos⟩

set_option maxRecDepth 100000 in
/-- A token behind a comment that holds a character of three bytes and a newline. -/
theorem first_token_behind_comment :
    let p := start (fun _ => none) {} [] ⟨"a.c"⟩ "/*€\n*/int"
    p.next.1.pos = ⟨0, 1, ⟨8, 11⟩⟩ ∧
      ∃ file, p.next.2.files[0]? = some file ∧ file.slice ⟨8, 11⟩ = "int" := by
  intro p
  have hnext : p.next.1 = ⟨.intKeyword, "int", ⟨0, 1, ⟨8, 11⟩⟩⟩ := by
    unfold p
    cbv
  obtain ⟨r, file, -, -, hfile, -, -, hslice, -⟩ :=
    tokens_lie_in_text (fun _ => none) {} [] ⟨"a.c"⟩ "/*€\n*/int" 0
  change p.next.2.files[p.next.1.pos.buffer]? = some file at hfile
  change p.next.1.kind ≠ .invalid → p.next.1.kind ≠ .endOfFile →
    file.slice p.next.1.pos.span = p.next.1.lexeme at hslice
  rw [hnext] at hfile hslice
  exact ⟨congrArg Token.pos hnext, file, hfile, hslice Kind.noConfusion Kind.noConfusion⟩

end Preprocessor

end SmallC
