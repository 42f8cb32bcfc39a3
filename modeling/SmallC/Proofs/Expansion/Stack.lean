import SmallC.Proofs.Expansion.Exactness

/-!
# The stack of buffers

Files are included from files only, and definitions change in files only. So the stack holds the first file,
then included files and then replacements, and a word that is being replaced stays bound to the text that
replaces it. `Preprocessor.Layered` says this of the buffers; it is kept by every step, along with the
places of the frames in their texts.
-/
namespace SmallC

namespace Buffer

theorem name?_of_isFile {b : Buffer} (h : b.isFile = true) : b.name? = none := by
  obtain ⟨id, origin, text⟩ := b
  cases origin with
  | file path => rfl
  | replacement name => cases h

theorem exists_name? {b : Buffer} (h : b.isFile = false) : ∃ name, b.name? = some name := by
  obtain ⟨id, origin, text⟩ := b
  cases origin with
  | file path => cases h
  | replacement name => exact ⟨name, rfl⟩

theorem isFile_of_name? {b : Buffer} {name : String} (h : b.name? = some name) : b.isFile = false := by
  by_contra hfile
  rw [name?_of_isFile (Bool.eq_true_of_not_eq_false hfile)] at h
  cases h

end Buffer

namespace Definitions

variable {t : Definitions} {name : String} {d : Definition}

theorem contains_iff : t.contains name = true ↔ ∃ d, t.get? name = some d := by
  rw [← Option.isSome_iff_exists, get?, List.find?_isSome, contains, List.any_eq_true]

theorem name_of_get? (h : t.get? name = some d) : d.name = name := by
  have hfound := List.find?_some h
  exact beq_iff_eq.1 hfound

end Definitions

/-- The frame stands at a place of its text: at a boundary between characters that is not past the end,
with the text behind it unread and the newlines in front of it counted. -/
structure Frame.Placed (f : Frame) : Prop where
  within : f.offset ≤ f.buffer.text.utf8ByteSize
  boundary : String.Pos.Raw.IsValid f.buffer.text ⟨f.offset⟩
  unread : String.Pos.Raw.extract f.buffer.text ⟨f.offset⟩ ⟨f.buffer.text.utf8ByteSize⟩ = .ofList f.rest
  line : f.line = (f.buffer.text.toByteArray.data.toList.take f.offset).count 10

theorem Frame.InStep.placed {f : Frame} (h : f.InStep) : f.Placed := by
  obtain ⟨read, htext, hoffset, hline⟩ := h
  let file : SourceFile := ⟨"", f.buffer.text⟩
  have hcut : file.text.toList = read ++ f.rest := htext
  have hsize : f.buffer.text.utf8ByteSize = Text.size read + Text.size f.rest := by
    rw [← Text.size_append, ← htext, Text.size_eq_utf8ByteSize, String.ofList_toList]
  have hslice : file.slice ⟨Text.size read, Text.size read + Text.size f.rest⟩ = .ofList f.rest := by
    rw [← List.append_nil (read ++ f.rest)] at hcut
    exact SourceFile.slice_eq hcut
  refine ⟨?_, ?_, ?_, ?_⟩
  · rw [hoffset, hsize]
    exact Nat.le_add_right _ _
  · rw [hoffset]
    exact SourceFile.boundary_of_append hcut
  · rw [SourceFile.slice] at hslice
    rwa [hoffset, hsize]
  · rw [hline, hoffset]
    exact (SourceFile.newlinesBefore_eq hcut).symm

namespace Preprocessor

variable {p q : Preprocessor}

/-- The buffers being read, the innermost first. -/
def stack (p : Preprocessor) : List Buffer :=
  (p.active :: p.suspended).map Frame.buffer

/-- The stack keeps its order: below a file there are only files, no more buffers are suspended than there
may be, and the names that are replaced are different and bound to what replaces them. -/
structure Layered (p : Preprocessor) : Prop where
  room : p.depth ≤ p.maxDepth
  files : p.stack.Pairwise fun inner outer => inner.isFile = true → outer.isFile = true
  distinct : (p.stack.filterMap Buffer.name?).Nodup
  bound : ∀ b ∈ p.stack, ∀ name, b.name? = some name →
    ∃ d, p.definitions.get? name = some d ∧ d.replacement = b
  table : ∀ name d, p.definitions.get? name = some d → d.replacement.name? = some name

theorem stack_readsOn {g : Frame} (h : p.active.ReadsOn g) :
    (g :: p.suspended).map Frame.buffer = p.stack := by
  rw [stack, List.map_cons, List.map_cons, h.buffer]

theorem isExpanding_iff (p : Preprocessor) (name : String) :
    p.isExpanding name = true ↔ name ∈ p.stack.filterMap Buffer.name? := by
  unfold isExpanding stack
  rw [List.any_eq_true, List.mem_filterMap]
  constructor
  · rintro ⟨f, hf, hname⟩
    exact ⟨f.buffer, List.mem_map_of_mem hf, beq_iff_eq.1 hname⟩
  · rintro ⟨b, hb, hname⟩
    obtain ⟨f, hf, rfl⟩ := List.mem_map.1 hb
    exact ⟨f, hf, beq_iff_eq.2 hname⟩

/-- While a file is being read no word is being replaced. -/
theorem Layered.name?_eq_none (h : p.Layered) (hf : p.active.buffer.isFile = true) :
    ∀ b ∈ p.stack, b.name? = none := by
  have hbelow := (List.pairwise_cons.1 h.files).1
  intro b hb
  rcases List.mem_cons.1 hb with rfl | hb
  · exact Buffer.name?_of_isFile hf
  · exact Buffer.name?_of_isFile (hbelow b hb hf)

/-- A file that is being read lies above files only, so its directives change no binding that is in use. -/
theorem Layered.redefine (h : p.Layered) (hf : p.active.buffer.isFile = true)
    (hroom : q.depth ≤ q.maxDepth) (hstack : q.stack = p.stack)
    (htable : ∀ name d, q.definitions.get? name = some d → d.replacement.name? = some name) :
    q.Layered := by
  refine ⟨hroom, hstack ▸ h.files, hstack ▸ h.distinct, fun b hb name hname => ?_, htable⟩
  rw [h.name?_eq_none hf b (hstack ▸ hb)] at hname
  cases hname

theorem Layered.define (h : p.Layered) (hf : p.active.buffer.isFile = true) (name body : String) :
    (p.define name body).Layered := by
  refine h.redefine hf h.room rfl fun other d hd => ?_
  by_cases ho : other = name
  · subst ho
    rw [Preprocessor.define, Definitions.get?_insert_same] at hd
    obtain rfl := Option.some.inj hd
    rfl
  · rw [Preprocessor.define, Definitions.get?_insert_other _ _ ho] at hd
    exact h.table other d hd

theorem Layered.undefine (h : p.Layered) (hf : p.active.buffer.isFile = true) (name : String) :
    Layered { p with definitions := p.definitions.erase name } := by
  refine h.redefine hf h.room rfl fun other d hd => ?_
  by_cases ho : other = name
  · subst ho
    rw [Definitions.get?_erase_same] at hd
    cases hd
  · rw [Definitions.get?_erase_other _ ho] at hd
    exact h.table other d hd

/-- A file is put on files, and a replacement on anything where its name is not replaced yet. -/
theorem Layered.enter (h : p.Layered) (hroom : p.depth < p.maxDepth) {buffer : Buffer} (directory : Path)
    (hfile : buffer.isFile = true → p.active.buffer.isFile = true)
    (hname : ∀ name, buffer.name? = some name → p.isExpanding name = false ∧
      ∃ d, p.definitions.get? name = some d ∧ d.replacement = buffer) :
    (p.enter (Frame.start buffer directory)).Layered := by
  have hbelow := (List.pairwise_cons.1 h.files).1
  refine ⟨hroom, List.pairwise_cons.2 ⟨fun b hb hf => ?_, h.files⟩, ?_, fun b hb name hb' => ?_, h.table⟩
  · rcases List.mem_cons.1 hb with rfl | hb
    · exact hfile hf
    · exact hbelow b hb (hfile hf)
  · change (List.filterMap Buffer.name? (buffer :: p.stack)).Nodup
    cases hn : buffer.name? with
    | none =>
      rw [List.filterMap_cons_none hn]
      exact h.distinct
    | some name =>
      rw [List.filterMap_cons_some hn, List.nodup_cons, ← isExpanding_iff]
      exact ⟨Bool.eq_false_iff.1 (hname name hn).1, h.distinct⟩
  · rcases List.mem_cons.1 hb with rfl | hb
    · exact (hname name hb').2
    · exact h.bound b hb name hb'

theorem Layered.readsOn (h : p.Layered) {g : Frame} (hg : p.active.ReadsOn g) (tried : List Path)
    (files : List SourceFile) : Layered { p with active := g, tried, files } := by
  have hstack : stack { p with active := g, tried, files } = p.stack := stack_readsOn hg
  refine ⟨h.room, ?_, ?_, ?_, h.table⟩
  · rw [hstack]
    exact h.files
  · rw [hstack]
    exact h.distinct
  · rw [hstack]
    exact h.bound

theorem Layered.follows (h : p.Layered) (hq : p.Follows q) : q.Layered := by
  cases hq with
  | @resume caller callers hs =>
    have hstack : p.stack = p.active.buffer :: (caller :: callers).map Frame.buffer := by
      rw [stack, hs, List.map_cons]
    obtain ⟨hroom, hfiles, hdistinct, hbound, htable⟩ := h
    rw [hstack] at hfiles hdistinct hbound
    rw [depth, hs, List.length_cons] at hroom
    refine ⟨Nat.le_of_succ_le hroom, hfiles.tail, ?_, fun b hb => hbound b (List.mem_cons_of_mem _ hb), htable⟩
    exact hdistinct.sublist ((List.sublist_cons_self ..).filterMap _)
  | readOn hg tried => exact h.readsOn hg tried p.files
  | define hg hf name body =>
    exact (h.readsOn hg p.tried p.files).define (hg.buffer ▸ hf) name body
  | undefine hg hf name =>
    exact (h.readsOn hg p.tried p.files).undefine (hg.buffer ▸ hf) name
  | insert hg hf room path text tried =>
    refine (h.readsOn hg tried _).enter room _ (fun _ => hg.buffer ▸ hf) ?_
    intro name hname
    cases hname
  | @replace g hg name d defined free room =>
    have hname := h.table name d defined
    refine (h.readsOn hg p.tried p.files).enter room _ ?_ ?_
    · intro hfile
      rw [Buffer.isFile_of_name? hname] at hfile
      cases hfile
    · intro other hother
      obtain rfl := Option.some.inj (hname.symm.trans hother)
      refine ⟨?_, d, defined, rfl⟩
      rw [← free, Bool.eq_iff_iff, isExpanding_iff, isExpanding_iff]
      exact Iff.of_eq (congrArg (name ∈ List.filterMap Buffer.name? ·) (stack_readsOn hg))

/-- No definition changes while a word is being replaced. -/
theorem Layered.definitions_eq (h : p.Layered) (hq : p.Follows q) {name : String}
    (hname : p.isExpanding name = true) : q.definitions = p.definitions := by
  have hnoFile : ¬ p.active.buffer.isFile = true := by
    intro hf
    obtain ⟨b, hb, hbname⟩ := List.mem_filterMap.1 ((p.isExpanding_iff name).1 hname)
    rw [h.name?_eq_none hf b hb] at hbname
    cases hbname
  cases hq with
  | resume | readOn | insert | replace => rfl
  | define _ hf | undefine _ hf => exact absurd hf hnoFile

theorem Follows.maxDepth_eq (h : p.Follows q) : q.maxDepth = p.maxDepth := by
  cases h <;> rfl

/-- What a state of a run that starts with the file keeps to. -/
structure Orderly (settings : Settings) (files : List SourceFile) (path : Path) (text : String)
    (p : Preprocessor) : Prop where
  runs : Runs files path text p
  limit : p.maxDepth = settings.maxDepth
  layered : p.Layered

variable {settings : Settings} {files : List SourceFile} {path : Path} {text : String}

theorem Orderly.follows (hq : p.Follows q) (h : Orderly settings files path text p) :
    Orderly settings files path text q :=
  ⟨h.runs.follows hq, hq.maxDepth_eq.trans h.limit, h.layered.follows hq⟩

theorem foldl_define_layered (defines : List (String × String)) (h : p.Layered)
    (hf : p.active.buffer.isFile = true) :
    (defines.foldl (fun p (name, body) => p.define name body) p).Layered := by
  induction defines generalizing p with
  | nil => exact h
  | cons d defines ih => exact ih (h.define hf d.1 d.2) hf

theorem orderly_start (load : Path → Option String) (settings : Settings) (files : List SourceFile)
    (path : Path) (text : String) :
    Orderly settings files path text (start load settings files path text) := by
  refine ⟨runs_start .., (holds_start load settings files path text).maxDepth, ?_⟩
  refine foldl_define_layered settings.defines ?_ rfl
  refine ⟨Nat.zero_le _, List.pairwise_singleton _ _, List.nodup_nil, fun b hb name hname => ?_,
    fun _ _ hd => nomatch hd⟩
  obtain rfl := List.mem_singleton.1 hb
  cases hname

/-- The frames from the first buffer to the one being read. -/
def frames (p : Preprocessor) : List Frame :=
  (p.active :: p.suspended).reverse

/-- Where nothing but files lies below a file, the files lie together. -/
theorem exists_layers (fs : List Frame) (h : (fs.map Frame.buffer).Pairwise
      fun inner outer => inner.isFile = true → outer.isFile = true) :
    ∃ upper lower, fs = upper ++ lower ∧ (∀ f ∈ upper, f.buffer.isFile = false) ∧
      ∀ f ∈ lower, f.buffer.isFile = true := by
  induction fs with
  | nil => exact ⟨[], [], rfl, fun _ hf => (nomatch hf), fun _ hf => (nomatch hf)⟩
  | cons f fs ih =>
    obtain ⟨hbelow, hrest⟩ := List.pairwise_cons.1 h
    cases hfile : f.buffer.isFile with
    | true =>
      refine ⟨[], f :: fs, rfl, fun _ hf => (nomatch hf), List.forall_mem_cons.2 ⟨hfile, fun g hg => ?_⟩⟩
      exact hbelow g.buffer (List.mem_map_of_mem hg) hfile
    | false =>
      obtain ⟨upper, lower, rfl, hupper, hlower⟩ := ih hrest
      exact ⟨f :: upper, lower, rfl, List.forall_mem_cons.2 ⟨hfile, hupper⟩, hlower⟩

/-- The first file, the included files and the replacements. -/
theorem Orderly.exists_frames (h : Orderly settings files path text p) :
    ∃ main included replacing, p.frames = main :: (included ++ replacing) ∧
      main.buffer = ⟨files.length, .file path, text⟩ ∧
      (∀ f ∈ included, f.buffer.isFile = true) ∧ ∀ f ∈ replacing, f.buffer.isFile = false := by
  obtain ⟨upper, lower, hsplit, hupper, hlower⟩ := exists_layers _ h.layered.files
  have hlast : (p.active :: p.suspended).getLast? = some (p.suspended.getLastD p.active) := by
    rw [List.getLast?_cons, List.getLastD_eq_getLast?]
  rcases List.eq_nil_or_concat lower with rfl | ⟨included, main, rfl⟩
  · -- the first buffer is a file
    rw [List.append_nil] at hsplit
    have hmem := List.mem_of_getLast? hlast
    rw [hsplit] at hmem
    have hmain := hupper _ hmem
    rw [show (p.suspended.getLastD p.active).buffer = _ from h.runs.main] at hmain
    cases hmain
  · rw [List.concat_eq_append] at hsplit hlower
    rw [hsplit, ← List.append_assoc, List.getLast?_concat] at hlast
    refine ⟨main, included.reverse, upper.reverse, ?_, ?_, ?_, ?_⟩
    · rw [frames, hsplit]
      simp
    · rw [Option.some.inj hlast]
      exact h.runs.main
    · intro f hf
      exact hlower f (List.mem_append_left _ (List.mem_reverse.1 hf))
    · intro f hf
      exact hupper f (List.mem_reverse.1 hf)

/-- Wherever the preprocessor has got to, its stack holds the first file, then included files and then
replacements of different names, no deeper than it may. So nothing is defined while a word is being replaced. -/
theorem stack_stays_layered (load : Path → Option String) (settings : Settings)
    (files : List SourceFile) (path : Path) (text : String) (n : Nat) {q : Preprocessor}
    (h : Emits ((start load settings files path text).calls n).2 [] q) :
    (∃ main included replacing, q.frames = main :: (included ++ replacing) ∧
        main.buffer = ⟨files.length, .file path, text⟩ ∧
        (∀ f ∈ included, f.buffer.isFile = true) ∧
        (replacing.filterMap (·.buffer.name?)).Nodup ∧
        ∀ f ∈ replacing, ∃ d, f.buffer.name? = some d.name ∧ q.definitions.get? d.name = some d ∧
          d.replacement = f.buffer) ∧
      q.suspended.length ≤ settings.maxDepth ∧
      (∀ f ∈ q.frames, f.Placed) ∧
      (∀ name, q.isExpanding name = true →
        (∃ d, q.definitions.get? name = some d) ∧ q.step.after.definitions = q.definitions) ∧
      ∀ w g, q.active.piece? = some (.token w, g) → w.kind.isWord = true →
        q.definitions.contains w.lexeme = true →
          ∃ d, q.definitions.get? w.lexeme = some d ∧ q.step = replace { q with active := g } w d := by
  have horderly : Orderly settings files path text q :=
    h.keeps (fun _ _ => Orderly.follows)
      (calls_keeps (fun _ _ => Orderly.follows) (orderly_start load settings files path text) n)
  have hlayered := horderly.layered
  refine ⟨?_, ?_, ?_, ?_, ?_⟩
  · obtain ⟨main, included, replacing, hframes, hmain, hincluded, hreplacing⟩ := horderly.exists_frames
    refine ⟨main, included, replacing, hframes, hmain, hincluded, ?_, fun f hf => ?_⟩
    · have hdistinct : (q.frames.filterMap (·.buffer.name?)).Nodup := by
        rw [frames, List.filterMap_reverse, (List.reverse_perm _).nodup_iff,
          ← Function.comp_def Buffer.name?, ← List.filterMap_map]
        exact hlayered.distinct
      have hpart : replacing.Sublist q.frames := by
        rw [hframes]
        exact (List.sublist_append_right included replacing).cons main
      exact hdistinct.sublist (hpart.filterMap _)
    · have hmem : f ∈ q.frames := by
        rw [hframes]
        exact List.mem_cons_of_mem _ (List.mem_append_right _ hf)
      obtain ⟨name, hname⟩ := Buffer.exists_name? (hreplacing f hf)
      obtain ⟨d, hd, hbuffer⟩ :=
        hlayered.bound f.buffer (List.mem_map_of_mem (List.mem_reverse.1 hmem)) name hname
      obtain rfl := Definitions.name_of_get? hd
      exact ⟨d, hname, hd, hbuffer⟩
  · rw [← horderly.limit]
    exact hlayered.room
  · intro f hf
    exact (horderly.runs.grounded.frames f (List.mem_reverse.1 hf)).1.placed
  · intro name hname
    obtain ⟨b, hb, hbname⟩ := List.mem_filterMap.1 ((q.isExpanding_iff name).1 hname)
    obtain ⟨d, hd, -⟩ := hlayered.bound b hb name hbname
    exact ⟨⟨d, hd⟩, hlayered.definitions_eq q.follows_step hname⟩
  · intro w g hw hword hcontains
    obtain ⟨d, hd⟩ := Definitions.contains_iff.1 hcontains
    refine ⟨d, hd, ?_⟩
    rw [step_of_token hw, if_pos hword, hd]

set_option maxRecDepth 100000 in
/-- A word that is being replaced by a text with the word in it. -/
theorem ownName_stays_bound :
    let p := start (fun _ => none) {} [] ⟨"a.c"⟩ "#define A 1 A\nA"
    let q := p.step.after.step.after
    Emits (p.calls 0).2 [] q ∧ q.isExpanding "A" = true ∧ q.suspended.length ≤ 200 ∧
      (∃ d, q.definitions.get? "A" = some d) ∧ q.step.after.definitions = q.definitions := by
  intro p q
  have hdefine : p.step = .silent p.step.after := by
    unfold p
    cbv
  have hreplace : p.step.after.step = .silent q := by
    unfold q p
    cbv
  have hname : q.isExpanding "A" = true := by
    unfold q p
    cbv
  have hq : Emits (p.calls 0).2 [] q := .silent hdefine (.silent hreplace (.refl q))
  obtain ⟨-, hroom, -, hbound, -⟩ :=
    stack_stays_layered (fun _ => none) {} [] ⟨"a.c"⟩ "#define A 1 A\nA" 0 hq
  exact ⟨hq, hname, hroom, hbound "A" hname⟩

end Preprocessor

end SmallC
