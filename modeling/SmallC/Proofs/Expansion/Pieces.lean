import SmallC.Preprocessor

/-!
# What a buffer holds

Reading one buffer depends on nothing but its text: where its tokens and its directives stand, and what
they say. `Frame.piece?` reads one of them and `Frame.pieces` all that is left. A frame that has read on
is still in step with its text, `Frame.InStep`: its offset and its line are those of what it has read.
-/
namespace SmallC

/-- A part of a buffer: a token, or a directive whose `#` stands at `pos`. -/
inductive Piece where
  | token (t : Token)
  | directive (pos : Position) (outcome : Except Directive.Fault Directive)

theorem Scan.item_token_eq {cs lexeme rest : List Char} {kind : Kind}
    (h : Scan.item cs = .token kind lexeme rest) : cs = lexeme ++ rest := by
  unfold Scan.item at h
  split at h
  · cases h
  · split at h
    · next ht =>
      cases h
      exact (Scan.token?_eq ht).1
    · cases h

theorem Scan.item_invalid_eq {cs rest : List Char} {c : Char} (h : Scan.item cs = .invalid c rest) :
    cs = c :: rest := by
  unfold Scan.item at h
  split at h
  · cases h
  · split at h
    · cases h
    · cases h
      rfl

theorem Scan.newline_notMem_lexeme {cs lexeme rest : List Char} {kind : Kind}
    (h : Scan.item cs = .token kind lexeme rest) : '\n' ∉ lexeme := by
  unfold Scan.item at h
  split at h
  · cases h
  · split at h
    · next ht =>
      cases h
      exact Scan.newline_notMem_token ht
    · cases h

/-- Behind a gap there is no white space. -/
theorem Scan.item_invalid_ne_newline {cs rest : List Char} {c : Char}
    (h : Scan.item (Scan.gap cs).2 = .invalid c rest) : c ≠ '\n' := by
  rintro rfl
  have hnone := Scan.piece?_gap cs
  rw [Scan.item_invalid_eq h] at hnone
  cases hnone

namespace Frame

/-- What has been read and what is left make up the text, and the offset and the line are those of what
has been read. -/
def InStep (f : Frame) : Prop :=
  ∃ read, f.buffer.text.toList = read ++ f.rest ∧ f.offset = Text.size read ∧
    f.line = Text.lines read

theorem inStep_start (buffer : Buffer) (directory : Path) : (start buffer directory).InStep :=
  ⟨[], rfl, rfl, rfl⟩

theorem InStep.pass {f : Frame} (h : f.InStep) {read rest : List Char} (hr : f.rest = read ++ rest) :
    (f.pass read rest).InStep := by
  obtain ⟨before, htext, hoffset, hline⟩ := h
  refine ⟨before ++ read, ?_, ?_, ?_⟩
  · change f.buffer.text.toList = before ++ read ++ rest
    rw [htext, hr, List.append_assoc]
  · change f.offset + Text.size read = _
    rw [hoffset, Text.size_append]
  · change f.line + Text.lines read = _
    rw [hline, Text.lines_append]

theorem InStep.passGap {f : Frame} (h : f.InStep) {read rest : List Char}
    (hr : f.rest = read ++ rest) : (f.passGap read rest).InStep :=
  h.pass hr

theorem InStep.passItem {f : Frame} (h : f.InStep) {read rest : List Char} {newlines : Nat}
    (hr : f.rest = read ++ rest) (hlines : Text.lines read = newlines) :
    (f.passItem read rest newlines).InStep := by
  subst hlines
  exact h.pass hr

/-- A frame in step with its text stands at the end of the text once it has passed what is left. -/
theorem InStep.ending {f : Frame} (h : f.InStep) :
    (f.pass f.rest []).position [] =
      ⟨f.buffer.id, Text.lines f.buffer.text.toList,
        ⟨Text.size f.buffer.text.toList, Text.size f.buffer.text.toList⟩⟩ := by
  obtain ⟨read, htext, hoffset, hline⟩ := h
  rw [htext, Text.lines_append, Text.size_append, ← hoffset, ← hline]
  rfl

/-- Reads the next piece, if there is one. -/
def piece? (f : Frame) : Option (Piece × Frame) :=
  let (gap, rest) := Scan.gap f.rest
  let g := f.passGap gap rest
  match Scan.item rest with
  | .finish => none
  | .invalid c rest =>
    let message := "unrecognized character '" ++ Text.visible c ++ "'"
    some (.token (.invalid message (g.position [c])), g.passItem [c] rest)
  | .token kind lexeme rest =>
    let t : Token := ⟨kind, String.ofList lexeme, g.position lexeme⟩
    let after := g.passItem lexeme rest
    if kind ≠ .punct .hash then some (.token t, after)
    else if g.fresh && g.buffer.isFile then
      let reading := Directive.read rest
      some (.directive t.pos reading.outcome,
        after.passItem (Text.before rest reading.rest) reading.rest reading.newlines)
    else some (.token (.invalid "stray '#' in program" t.pos), after)

/-- What reading on in a buffer leaves as it was. -/
structure ReadsOn (f g : Frame) : Prop where
  buffer : g.buffer = f.buffer
  directory : g.directory = f.directory
  inStep : f.InStep → g.InStep

theorem ReadsOn.refl (f : Frame) : f.ReadsOn f :=
  ⟨rfl, rfl, id⟩

theorem ReadsOn.trans {f g h : Frame} (hg : f.ReadsOn g) (hh : g.ReadsOn h) : f.ReadsOn h :=
  ⟨hh.buffer.trans hg.buffer, hh.directory.trans hg.directory, hh.inStep ∘ hg.inStep⟩

/-- Reading a piece reads on. -/
theorem piece?_readsOn {f g : Frame} {piece : Piece} (h : f.piece? = some (piece, g)) :
    f.ReadsOn g ∧ g.rest.length < f.rest.length := by
  have hgap := Scan.gap_eq f.rest
  have hle := Scan.gap_length f.rest
  unfold piece? at h
  dsimp only at h
  split at h
  · cases h
  · next c rest hi =>
    obtain ⟨-, rfl⟩ := Prod.mk.inj (Option.some.inj h)
    refine ⟨⟨rfl, rfl, fun hf => ?_⟩, Nat.lt_of_lt_of_le (Scan.item_invalid_length hi) hle⟩
    have hc : '\n' ∉ [c] := by simpa using (Scan.item_invalid_ne_newline hi).symm
    exact (hf.passGap hgap).passItem (Scan.item_invalid_eq hi) (Text.lines_eq_zero_iff.2 hc)
  · next kind lexeme rest hi =>
    have hlt := Nat.lt_of_lt_of_le (Scan.item_token_length hi) hle
    have hon (hf : f.InStep) :
        ((f.passGap (Scan.gap f.rest).1 (Scan.gap f.rest).2).passItem lexeme rest).InStep :=
      (hf.passGap hgap).passItem (Scan.item_token_eq hi) (Text.lines_eq_zero_iff.2 (Scan.newline_notMem_lexeme hi))
    split at h
    · obtain ⟨-, rfl⟩ := Prod.mk.inj (Option.some.inj h)
      exact ⟨⟨rfl, rfl, hon⟩, hlt⟩
    · split at h
      · obtain ⟨-, rfl⟩ := Prod.mk.inj (Option.some.inj h)
        have hleaves := Directive.read_leaves rest
        obtain ⟨hcut, hlines⟩ := hleaves.before_eq
        refine ⟨⟨rfl, rfl, fun hf => ?_⟩, Nat.lt_of_le_of_lt hleaves.length_le hlt⟩
        exact (hon hf).passItem hcut hlines
      · obtain ⟨-, rfl⟩ := Prod.mk.inj (Option.some.inj h)
        exact ⟨⟨rfl, rfl, hon⟩, hlt⟩

/-- The pieces that are left to read. -/
def pieces (f : Frame) : List Piece :=
  match h : f.piece? with
  | none => []
  | some (piece, g) =>
    have := (piece?_readsOn h).2
    piece :: g.pieces
termination_by f.rest.length

end Frame

end SmallC
