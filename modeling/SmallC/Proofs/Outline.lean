import SmallC.Tree.Outline
import SmallC.Proofs.Grammar.Writing
import SmallC.Proofs.Relocation

/-!
# Reading trees off their outlines

The text of an outline can be cut into its lines: a line ends at its newline, and its colons set off what it
says. The lines can be put together to a tree again. How many operands a node has is known from its kind, and
where statements or an initial value may be missing, the depth of the next line tells: it is the depth of a
child just when there is one more.
-/
namespace SmallC

/-- What an outline shows of a position. -/
def Position.lineOnly (pos : Position) : Position :=
  ⟨0, pos.line, ⟨0, 0⟩⟩

theorem Position.lineOnly_congr {pos pos' : Position} (h : pos.line = pos'.line) :
    pos.lineOnly = pos'.lineOnly := by
  rw [lineOnly, lineOnly, h]

/-- What stands before the first of a character can be told from the text. -/
theorem Text.before_inj {c : Char} {xs ys cs ds : List Char} (hxs : c ∉ xs) (hys : c ∉ ys)
    (h : xs ++ c :: cs = ys ++ c :: ds) : xs = ys ∧ cs = ds := by
  induction xs generalizing ys with
  | nil =>
    cases ys with
    | nil => exact ⟨rfl, (List.cons.inj h).2⟩
    | cons y ys => exact absurd (List.cons.inj h).1 (List.ne_of_not_mem_cons hys)
  | cons x xs ih =>
    cases ys with
    | nil => exact absurd (List.cons.inj h).1.symm (List.ne_of_not_mem_cons hxs)
    | cons y ys =>
      obtain ⟨rfl, hrest⟩ := List.cons.inj h
      obtain ⟨rfl, hcs⟩ := ih (List.not_mem_of_not_mem_cons hxs) (List.not_mem_of_not_mem_cons hys) hrest
      exact ⟨rfl, hcs⟩

namespace OutlineLine

variable {l l' : OutlineLine} {ls ls' : List OutlineLine}

/-- Nothing that the line says looks like the end of it. -/
structure Legible (l : OutlineLine) : Prop where
  node : ':' ∉ l.node.toList
  detail : '\n' ∉ l.detail.toList

theorem legible_mk {depth line : Nat} {node detail : String} (hnode : ':' ∉ node.toList)
    (hdetail : '\n' ∉ detail.toList) : Legible ⟨depth, line, node, detail⟩ :=
  ⟨hnode, hdetail⟩

/-- What stands before the first colon. -/
def margin (l : OutlineLine) : List Char :=
  List.replicate (2 * l.depth) ' ' ++ Nat.toDigits 10 l.line

/-- What stands after the second colon. -/
def ending (l : OutlineLine) : List Char :=
  if l.detail == "" then [] else ' ' :: l.detail.toList

theorem toList_render (l : OutlineLine) :
    l.render.toList = l.margin ++ ':' :: (l.node.toList ++ ':' :: (l.ending ++ ['\n'])) := by
  have hending : (if l.detail == "" then "" else " " ++ l.detail).toList = l.ending := by
    unfold ending
    split
    · rfl
    · exact String.toList_append
  unfold render margin
  rw [String.toList_append, String.toList_append, hending]
  simp

theorem notMem_digits {c : Char} (hc : c.isDigit = false) (n : Nat) : c ∉ Nat.toDigits 10 n := by
  intro h
  rw [Nat.isDigit_of_mem_toDigits (by decide) (by decide) h] at hc
  exact Bool.noConfusion hc

theorem colon_notMem_margin (l : OutlineLine) : ':' ∉ l.margin := by
  intro h
  rcases List.mem_append.1 h with hspace | hdigit
  · exact absurd (List.eq_of_mem_replicate hspace) (by decide)
  · exact notMem_digits (by decide) l.line hdigit

/-- The number of spaces tells the depth, and the rest is the number of the line. -/
theorem margin_inj (h : l.margin = l'.margin) : l.depth = l'.depth ∧ l.line = l'.line := by
  have hspaces : ∀ l : OutlineLine, l.margin.count ' ' = 2 * l.depth := by
    intro l
    unfold margin
    rw [List.count_append, List.count_replicate_self,
      List.count_eq_zero.2 (notMem_digits (by decide) l.line), Nat.add_zero]
  have hdepth : l.depth = l'.depth := by
    have hcount := congrArg (List.count ' ') h
    rw [hspaces, hspaces] at hcount
    omega
  refine ⟨hdepth, ?_⟩
  unfold margin at h
  rw [hdepth, List.append_cancel_left_eq] at h
  rw [← Nat.ofDigitChars_ten_toDigits (n := l.line), h, Nat.ofDigitChars_ten_toDigits]

theorem ending_inj (h : l.ending = l'.ending) : l.detail = l'.detail := by
  unfold ending at h
  split at h <;> split at h
  · next hl hl' => exact (beq_iff_eq.1 hl).trans (beq_iff_eq.1 hl').symm
  · exact nomatch h
  · exact nomatch h
  · exact String.toList_injective (List.cons.inj h).2

theorem Legible.newline_notMem_ending (h : l.Legible) : '\n' ∉ l.ending := by
  unfold ending
  split
  · exact List.not_mem_nil
  · exact List.not_mem_cons_of_ne_of_not_mem (by decide) h.detail

/-- A line can be told from the text that starts with it. -/
theorem Legible.render_append_inj {cs cs' : List Char} (hl : l.Legible) (hl' : l'.Legible)
    (h : l.render.toList ++ cs = l'.render.toList ++ cs') : l = l' ∧ cs = cs' := by
  rw [toList_render, toList_render] at h
  simp only [List.append_assoc, List.cons_append, List.nil_append] at h
  obtain ⟨hmargin, h⟩ := Text.before_inj l.colon_notMem_margin l'.colon_notMem_margin h
  obtain ⟨hnode, h⟩ := Text.before_inj hl.node hl'.node h
  obtain ⟨hending, h⟩ := Text.before_inj hl.newline_notMem_ending hl'.newline_notMem_ending h
  obtain ⟨hdepth, hline⟩ := margin_inj hmargin
  refine ⟨?_, h⟩
  cases l
  cases l'
  cases hdepth
  cases hline
  cases String.toList_injective hnode
  cases ending_inj hending
  rfl

/-- Lines can be told from their text. -/
theorem renderAll_inj (hls : ∀ l ∈ ls, l.Legible) (hls' : ∀ l ∈ ls', l.Legible)
    (h : renderAll ls = renderAll ls') : ls = ls' := by
  have htext : ls.flatMap (·.render.toList) = ls'.flatMap (·.render.toList) := by
    have hlist := congrArg String.toList h
    rwa [renderAll, renderAll, String.toList_join, String.toList_join, List.flatMap_map,
      List.flatMap_map] at hlist
  have hsome : ∀ (l : OutlineLine) (cs : List Char), l.render.toList ++ cs ≠ [] := by
    intro l cs
    rw [toList_render]
    simp
  clear h
  induction ls generalizing ls' with
  | nil =>
    cases ls' with
    | nil => rfl
    | cons l' ls' => exact absurd htext.symm (hsome l' _)
  | cons l ls ih =>
    cases ls' with
    | nil => exact absurd htext (hsome l _)
    | cons l' ls' =>
      obtain ⟨hl, hmore⟩ := List.forall_mem_cons.1 hls
      obtain ⟨hl', hmore'⟩ := List.forall_mem_cons.1 hls'
      obtain ⟨rfl, hrest⟩ := hl.render_append_inj hl' htext
      rw [ih hmore hmore' hrest]

end OutlineLine

section

open Grammar (levels assignSigns signs stepSigns)

def UnaryOp.all : List UnaryOp :=
  signs.map Prod.snd ++ stepSigns.map fun x => after x.2

def BinaryOp.all : List BinaryOp :=
  comma :: levels.flatten.map Prod.snd

def AssignOp.all : List AssignOp :=
  assignSigns.map Prod.snd

end

theorem UnaryOp.mem_all (op : UnaryOp) : op ∈ all := by
  cases op with
  | neg | bitNot | logNot => decide
  | before op | after op => cases op <;> decide

theorem BinaryOp.mem_all (op : BinaryOp) : op ∈ all := by
  cases op with
  | comma | logAnd | logOr => decide
  | arith op | compare op => cases op <;> decide

theorem AssignOp.mem_all (op : AssignOp) : op ∈ all := by
  cases op with
  | plain => decide
  | compound op => cases op <;> decide

theorem UnaryOp.label_inj {a b : UnaryOp} (h : a.label = b.label) : a = b := by
  have hnodup : (all.map label).Nodup := by decide
  exact List.inj_on_of_nodup_map hnodup a.mem_all b.mem_all h

theorem BinaryOp.spelling_inj {a b : BinaryOp} (h : a.spelling = b.spelling) : a = b := by
  have hnodup : (all.map spelling).Nodup := by decide
  exact List.inj_on_of_nodup_map hnodup a.mem_all b.mem_all h

theorem AssignOp.spelling_inj {a b : AssignOp} (h : a.spelling = b.spelling) : a = b := by
  have hnodup : (all.map spelling).Nodup := by decide
  exact List.inj_on_of_nodup_map hnodup a.mem_all b.mem_all h

namespace OutlineLine

/-- What the lines of operations name. -/
def operators : List String :=
  UnaryOp.all.map UnaryOp.label ++ (BinaryOp.all.map BinaryOp.spelling ++ AssignOp.all.map AssignOp.spelling)

theorem newline_notMem_operator {text : String} (h : text ∈ operators) : '\n' ∉ text.toList := by
  have hall : ∀ text ∈ operators, '\n' ∉ text.toList := by decide
  exact hall text h

variable {l l' : OutlineLine} {rest rest' : List OutlineLine} {depth : Nat}

/-- The lines are at an end, or go on with a line less deep. -/
def Above (depth : Nat) (ls : List OutlineLine) : Prop :=
  ∀ l ∈ ls.head?, l.depth < depth

theorem Above.mono {d : Nat} (h : Above depth rest) (hd : depth ≤ d) : Above d rest :=
  fun l hl => Nat.lt_of_lt_of_le (h l hl) hd

theorem cons_append_inj {line line' : Nat} {node node' detail detail' : String} {ls ls' : List OutlineLine}
    (h : ⟨depth, line, node, detail⟩ :: ls ++ rest = ⟨depth, line', node', detail'⟩ :: ls' ++ rest') :
    line = line' ∧ node = node' ∧ detail = detail' ∧ ls ++ rest = ls' ++ rest' := by
  obtain ⟨hl, hrest⟩ := List.cons.inj h
  obtain ⟨-, hline, hnode, hdetail⟩ := OutlineLine.mk.inj hl
  exact ⟨hline, hnode, hdetail, hrest⟩

theorem not_above_cons (h : depth ≤ l.depth) : ¬ Above depth (l :: rest) :=
  fun habove => Nat.not_lt.2 h (habove l rfl)

end OutlineLine

open OutlineLine (Above cons_append_inj legible_mk newline_notMem_operator not_above_cons operators)

variable {rest rest' : List OutlineLine} {depth : Nat}

theorem Expr.exists_outline_eq_cons (e : Expr) (depth : Nat) :
    ∃ l ls, e.outline depth = l :: ls ∧ l.depth = depth := by
  cases e <;> exact ⟨_, _, rfl, rfl⟩

theorem Stmt.exists_outline_eq_cons (s : Stmt) (depth : Nat) :
    ∃ l ls, s.outline depth = l :: ls ∧ l.depth = depth := by
  cases s <;> exact ⟨_, _, rfl, rfl⟩

/-- An expression can be told from lines that start with its own. -/
theorem Expr.outline_append_inj {e e' : Expr} (h : e.outline depth ++ rest = e'.outline depth ++ rest') :
    e.relocate Position.lineOnly = e'.relocate Position.lineOnly ∧ rest = rest' := by
  -- the first line names the kind of the node, so the other tree is of the same kind
  induction e generalizing e' depth rest rest' with
  | number digits pos =>
    cases e' with
    | number digits' pos' =>
      obtain ⟨hline, -, rfl, hrest⟩ := cons_append_inj h
      rw [relocate, relocate, Position.lineOnly_congr hline]
      exact ⟨rfl, hrest⟩
    | _ => exact absurd (cons_append_inj h).2.1 (by decide)
  | var name pos =>
    cases e' with
    | var name' pos' =>
      obtain ⟨hline, -, rfl, hrest⟩ := cons_append_inj h
      rw [relocate, relocate, Position.lineOnly_congr hline]
      exact ⟨rfl, hrest⟩
    | _ => exact absurd (cons_append_inj h).2.1 (by decide)
  | unary op operand pos ih =>
    cases e' with
    | unary op' operand' pos' =>
      obtain ⟨hline, -, hop, hoperand⟩ := cons_append_inj h
      obtain ⟨hoperand, hrest⟩ := ih hoperand
      rw [relocate, relocate, UnaryOp.label_inj hop, hoperand, Position.lineOnly_congr hline]
      exact ⟨rfl, hrest⟩
    | _ => exact absurd (cons_append_inj h).2.1 (by decide)
  | binary op left right pos ihl ihr =>
    cases e' with
    | binary op' left' right' pos' =>
      obtain ⟨hline, -, hop, hoperands⟩ := cons_append_inj h
      rw [List.append_assoc, List.append_assoc] at hoperands
      obtain ⟨hleft, hright⟩ := ihl hoperands
      obtain ⟨hright, hrest⟩ := ihr hright
      rw [relocate, relocate, BinaryOp.spelling_inj hop, hleft, hright, Position.lineOnly_congr hline]
      exact ⟨rfl, hrest⟩
    | _ => exact absurd (cons_append_inj h).2.1 (by decide)
  | assign op target value pos iht ihv =>
    cases e' with
    | assign op' target' value' pos' =>
      obtain ⟨hline, -, hop, hsides⟩ := cons_append_inj h
      rw [List.append_assoc, List.append_assoc] at hsides
      obtain ⟨htarget, hvalue⟩ := iht hsides
      obtain ⟨hvalue, hrest⟩ := ihv hvalue
      rw [relocate, relocate, AssignOp.spelling_inj hop, htarget, hvalue, Position.lineOnly_congr hline]
      exact ⟨rfl, hrest⟩
    | _ => exact absurd (cons_append_inj h).2.1 (by decide)

theorem TypeName.outline_append_inj {t t' : TypeName}
    (h : t.outline depth ++ rest = t'.outline depth ++ rest') :
    t.relocate Position.lineOnly = t'.relocate Position.lineOnly ∧ rest = rest' := by
  obtain ⟨hline, -, hname, hrest⟩ := cons_append_inj h
  rw [relocate, relocate, hname, Position.lineOnly_congr hline]
  exact ⟨rfl, hrest⟩

/-- Whether there is an initial value can be told from the next line, which would be deeper. -/
theorem Expr.initial_append_inj {init init' : Option Expr} (hrest : Above depth rest)
    (hrest' : Above depth rest')
    (h : (init.map (Expr.outline depth)).getD [] ++ rest = (init'.map (Expr.outline depth)).getD [] ++ rest') :
    init.map (Expr.relocate Position.lineOnly) = init'.map (Expr.relocate Position.lineOnly) ∧
      rest = rest' := by
  cases init with
  | none =>
    cases init' with
    | none => exact ⟨rfl, h⟩
    | some value' =>
      obtain ⟨l, ls, hvalue, hl⟩ := value'.exists_outline_eq_cons depth
      change rest = value'.outline depth ++ rest' at h
      rw [h, hvalue] at hrest
      exact absurd hrest (not_above_cons hl.ge)
  | some value =>
    cases init' with
    | none =>
      obtain ⟨l, ls, hvalue, hl⟩ := value.exists_outline_eq_cons depth
      change value.outline depth ++ rest = rest' at h
      rw [← h, hvalue] at hrest'
      exact absurd hrest' (not_above_cons hl.ge)
    | some value' =>
      obtain ⟨hvalue, hrest⟩ := outline_append_inj h
      exact ⟨congrArg some hvalue, hrest⟩

theorem Stmt.above_outlineAll (body : List Stmt) (h : Above depth rest) :
    Above (depth + 1) (outlineAll depth body ++ rest) := by
  cases body with
  | nil => exact h.mono (Nat.le_succ depth)
  | cons s more =>
    obtain ⟨l, ls, hs, hl⟩ := s.exists_outline_eq_cons depth
    rw [outlineAll, hs]
    rintro _ ⟨⟩
    exact Nat.lt_succ_of_le hl.le

mutual

/-- A statement can be told from lines that start with its own and then go on with none of its parts. -/
theorem Stmt.outline_append_inj : ∀ {s s' : Stmt} {depth : Nat} {rest rest' : List OutlineLine},
    Above (depth + 1) rest → Above (depth + 1) rest' →
    s.outline depth ++ rest = s'.outline depth ++ rest' →
    s.relocate Position.lineOnly = s'.relocate Position.lineOnly ∧ rest = rest'
  | .block body pos, s', depth, rest, rest', hrest, hrest', h => by
    cases s' with
    | block body' pos' =>
      obtain ⟨hline, -, -, hbody⟩ := cons_append_inj h
      obtain ⟨hbody, heq⟩ := Stmt.outlineAll_append_inj hrest hrest' hbody
      rw [relocate, relocate, hbody, Position.lineOnly_congr hline]
      exact ⟨rfl, heq⟩
    | _ => exact absurd (cons_append_inj h).2.1 (by decide)
  | .returns value pos, s', depth, rest, rest', _, _, h => by
    cases s' with
    | returns value' pos' =>
      obtain ⟨hline, -, -, hvalue⟩ := cons_append_inj h
      obtain ⟨hvalue, heq⟩ := Expr.outline_append_inj hvalue
      rw [relocate, relocate, hvalue, Position.lineOnly_congr hline]
      exact ⟨rfl, heq⟩
    | _ => exact absurd (cons_append_inj h).2.1 (by decide)
  | .expr value pos, s', depth, rest, rest', _, _, h => by
    cases s' with
    | expr value' pos' =>
      obtain ⟨hline, -, -, hvalue⟩ := cons_append_inj h
      obtain ⟨hvalue, heq⟩ := Expr.outline_append_inj hvalue
      rw [relocate, relocate, hvalue, Position.lineOnly_congr hline]
      exact ⟨rfl, heq⟩
    | _ => exact absurd (cons_append_inj h).2.1 (by decide)
  | .declare type name init pos, s', depth, rest, rest', hrest, hrest', h => by
    cases s' with
    | declare type' name' init' pos' =>
      obtain ⟨hline, -, hname, hparts⟩ := cons_append_inj h
      rw [List.append_assoc, List.append_assoc] at hparts
      obtain ⟨htype, hinit⟩ := TypeName.outline_append_inj hparts
      obtain ⟨hinit, heq⟩ := Expr.initial_append_inj hrest hrest' hinit
      rw [relocate, relocate, htype, hname, hinit, Position.lineOnly_congr hline]
      exact ⟨rfl, heq⟩
    | _ => exact absurd (cons_append_inj h).2.1 (by decide)

/-- Statements can be told from lines that go on less deep. -/
theorem Stmt.outlineAll_append_inj : ∀ {body body' : List Stmt} {depth : Nat} {rest rest' : List OutlineLine},
    Above depth rest → Above depth rest' →
    Stmt.outlineAll depth body ++ rest = Stmt.outlineAll depth body' ++ rest' →
    Stmt.relocateAll Position.lineOnly body = Stmt.relocateAll Position.lineOnly body' ∧ rest = rest'
  | [], [], _, _, _, _, _, h => ⟨rfl, h⟩
  | [], s' :: more', depth, rest, rest', hrest, _, h => by
    obtain ⟨l, ls, hs, hl⟩ := s'.exists_outline_eq_cons depth
    rw [outlineAll, outlineAll, hs] at h
    change rest = l :: _ at h
    rw [h] at hrest
    exact absurd hrest (not_above_cons hl.ge)
  | s :: more, [], depth, rest, rest', _, hrest', h => by
    obtain ⟨l, ls, hs, hl⟩ := s.exists_outline_eq_cons depth
    rw [outlineAll, outlineAll, hs] at h
    change l :: _ = rest' at h
    rw [← h] at hrest'
    exact absurd hrest' (not_above_cons hl.ge)
  | s :: more, s' :: more', depth, rest, rest', hrest, hrest', h => by
    rw [outlineAll, outlineAll, List.append_assoc, List.append_assoc] at h
    obtain ⟨hs, hmore⟩ :=
      Stmt.outline_append_inj (above_outlineAll more hrest) (above_outlineAll more' hrest') h
    obtain ⟨hmore, heq⟩ := Stmt.outlineAll_append_inj hrest hrest' hmore
    rw [relocateAll, relocateAll, hs, hmore]
    exact ⟨rfl, heq⟩

end

theorem Function.outline_append_inj {f f' : Function} (hf : f.params = []) (hf' : f'.params = [])
    (hrest : Above 1 rest) (hrest' : Above 1 rest') (h : f.outline ++ rest = f'.outline ++ rest') :
    f.relocate Position.lineOnly = f'.relocate Position.lineOnly ∧ rest = rest' := by
  unfold outline at h
  rw [hf, hf'] at h
  obtain ⟨hline, -, hname, hparts⟩ := cons_append_inj h
  rw [List.flatMap_nil, List.append_nil, List.append_nil, List.append_assoc, List.append_assoc] at hparts
  obtain ⟨htype, hbody⟩ := TypeName.outline_append_inj hparts
  obtain ⟨hbody, heq⟩ := Stmt.outline_append_inj (hrest.mono (by decide)) (hrest'.mono (by decide)) hbody
  obtain ⟨hbody, hpos⟩ := Stmt.block.inj hbody
  rw [relocate, relocate, htype, hname, hf, hf', Block.relocate, Block.relocate, hbody, hpos,
    Position.lineOnly_congr hline]
  exact ⟨rfl, heq⟩

theorem Function.above_outlines (fs : List Function) : Above 1 (fs.flatMap outline) := by
  cases fs with
  | nil => exact fun _ hl => nomatch hl
  | cons f fs =>
    rintro _ ⟨⟩
    exact Nat.zero_lt_one

/-- Functions without parameters can be told from their lines. -/
theorem Function.outlines_inj {fs fs' : List Function} (hfs : ∀ f ∈ fs, f.params = [])
    (hfs' : ∀ f ∈ fs', f.params = []) (h : fs.flatMap outline = fs'.flatMap outline) :
    fs.map (relocate Position.lineOnly) = fs'.map (relocate Position.lineOnly) := by
  induction fs generalizing fs' with
  | nil =>
    cases fs' with
    | nil => rfl
    | cons f' fs' => exact nomatch h
  | cons f fs ih =>
    cases fs' with
    | nil => exact nomatch h
    | cons f' fs' =>
      obtain ⟨hf, hmore⟩ := List.forall_mem_cons.1 hfs
      obtain ⟨hf', hmore'⟩ := List.forall_mem_cons.1 hfs'
      obtain ⟨heq, hrest⟩ := outline_append_inj hf hf' (above_outlines fs) (above_outlines fs') h
      rw [List.map_cons, List.map_cons, heq, ih hmore hmore' hrest]

theorem Text.newline_notMem_name {s : String} (h : isName s = true) : '\n' ∉ s.toList := by
  unfold isName at h
  split at h
  · exact nomatch h
  · next c cs hs =>
    simp only [Bool.and_eq_true, List.all_eq_true] at h
    obtain ⟨⟨⟨hc, hcs⟩, -⟩, -⟩ := h
    rw [hs]
    rintro (_ | ⟨_, hmem⟩)
    · exact absurd hc (by decide)
    · exact absurd (hcs _ hmem) (by decide)

theorem Text.newline_notMem_number {s : String} (h : isNumber s = true) : '\n' ∉ s.toList := by
  unfold isNumber at h
  rw [Bool.and_eq_true, List.all_eq_true] at h
  exact fun hmem => absurd (h.2 _ hmem) (by decide)

/-- The lines of an expression are legible if its names and numbers are. -/
theorem Expr.legible_outline {e : Expr} (h : e.isWritable = true) :
    ∀ l ∈ e.outline depth, l.Legible := by
  induction e generalizing depth with
  | number digits pos =>
    exact List.forall_mem_singleton.2 (legible_mk (by decide) (Text.newline_notMem_number h))
  | var name pos =>
    exact List.forall_mem_singleton.2 (legible_mk (by decide) (Text.newline_notMem_name h))
  | unary op operand pos ih =>
    have hop : op.label ∈ operators := List.mem_append_left _ (List.mem_map_of_mem op.mem_all)
    exact List.forall_mem_cons.2 ⟨legible_mk (by decide) (newline_notMem_operator hop), ih h⟩
  | binary op left right pos ihl ihr =>
    obtain ⟨hl, hr⟩ := (Bool.and_eq_true _ _).mp h
    have hop : op.spelling ∈ operators :=
      List.mem_append_right _ (List.mem_append_left _ (List.mem_map_of_mem op.mem_all))
    refine List.forall_mem_cons.2 ⟨legible_mk (by decide) (newline_notMem_operator hop), ?_⟩
    exact List.forall_mem_append.2 ⟨ihl hl, ihr hr⟩
  | assign op target value pos iht ihv =>
    obtain ⟨ht, hv⟩ := (Bool.and_eq_true _ _).mp h
    have hop : op.spelling ∈ operators :=
      List.mem_append_right _ (List.mem_append_right _ (List.mem_map_of_mem op.mem_all))
    refine List.forall_mem_cons.2 ⟨legible_mk (by decide) (newline_notMem_operator hop), ?_⟩
    exact List.forall_mem_append.2 ⟨iht ht, ihv hv⟩

theorem TypeName.legible_outline {t : TypeName} (h : t.name = "int") :
    ∀ l ∈ t.outline depth, l.Legible := by
  have hname : '\n' ∉ t.name.toList := by
    rw [h]
    decide
  exact List.forall_mem_singleton.2 (legible_mk (by decide) hname)

mutual

theorem Stmt.legible_outline : ∀ {s : Stmt} {depth : Nat}, s.isWritable = true →
    ∀ l ∈ s.outline depth, l.Legible
  | .block _ _, _, h => List.forall_mem_cons.2 ⟨legible_mk (by decide) (by decide), Stmt.legible_outlineAll h⟩
  | .returns _ _, _, h => List.forall_mem_cons.2 ⟨legible_mk (by decide) (by decide), Expr.legible_outline h⟩
  | .expr _ _, _, h => List.forall_mem_cons.2 ⟨legible_mk (by decide) (by decide), Expr.legible_outline h⟩
  | .declare type name init pos, depth, h => by
    obtain ⟨hfront, hinit⟩ := (Bool.and_eq_true _ _).mp h
    obtain ⟨htype, hname⟩ := (Bool.and_eq_true _ _).mp hfront
    refine List.forall_mem_cons.2 ⟨legible_mk (by decide) (Text.newline_notMem_name hname), ?_⟩
    refine List.forall_mem_append.2 ⟨TypeName.legible_outline (beq_iff_eq.1 htype), ?_⟩
    cases init with
    | none => exact fun _ hl => nomatch hl
    | some value => exact Expr.legible_outline hinit

theorem Stmt.legible_outlineAll : ∀ {body : List Stmt} {depth : Nat}, Stmt.areWritable body = true →
    ∀ l ∈ Stmt.outlineAll depth body, l.Legible
  | [], _, _ => fun _ hl => nomatch hl
  | _ :: _, _, h =>
    have ⟨hs, hmore⟩ := (Bool.and_eq_true _ _).mp h
    List.forall_mem_append.2 ⟨Stmt.legible_outline hs, Stmt.legible_outlineAll hmore⟩

end

theorem Function.legible_outline {f : Function} (h : f.isWritable = true) : ∀ l ∈ f.outline, l.Legible := by
  simp only [isWritable, Bool.and_eq_true, beq_iff_eq, List.isEmpty_iff] at h
  obtain ⟨⟨⟨htype, hparams⟩, hname⟩, hbody⟩ := h
  refine List.forall_mem_cons.2 ⟨legible_mk (by decide) (Text.newline_notMem_name hname), ?_⟩
  rw [hparams, List.flatMap_nil, List.append_nil]
  exact List.forall_mem_append.2 ⟨TypeName.legible_outline htype, Stmt.legible_outline hbody⟩

theorem Function.params_eq_nil {f : Function} (h : f.isWritable = true) : f.params = [] := by
  simp only [isWritable, Bool.and_eq_true, List.isEmpty_iff] at h
  exact h.1.1.2

theorem Expr.outline_lineOnly (e : Expr) (depth : Nat) :
    (e.relocate Position.lineOnly).outline depth = e.outline depth := by
  induction e generalizing depth with
  | number digits pos => rfl
  | var name pos => rfl
  | unary op operand pos ih =>
    rw [relocate, outline, outline, ih]
    rfl
  | binary op left right pos ihl ihr =>
    rw [relocate, outline, outline, ihl, ihr]
    rfl
  | assign op target value pos iht ihv =>
    rw [relocate, outline, outline, iht, ihv]
    rfl

mutual

theorem Stmt.outline_lineOnly : ∀ (s : Stmt) (depth : Nat),
    (s.relocate Position.lineOnly).outline depth = s.outline depth
  | .block body pos, depth => by
    rw [relocate, outline, outline, Stmt.outlineAll_lineOnly body]
    rfl
  | .returns value pos, depth => by
    rw [relocate, outline, outline, Expr.outline_lineOnly]
    rfl
  | .expr value pos, depth => by
    rw [relocate, outline, outline, Expr.outline_lineOnly]
    rfl
  | .declare type name init pos, depth => by
    rw [relocate, outline, outline, Option.map_map]
    have hsame : Expr.outline (depth + 1) ∘ Expr.relocate Position.lineOnly = Expr.outline (depth + 1) :=
      funext fun e => e.outline_lineOnly (depth + 1)
    rw [hsame]
    rfl

theorem Stmt.outlineAll_lineOnly : ∀ (body : List Stmt) (depth : Nat),
    Stmt.outlineAll depth (Stmt.relocateAll Position.lineOnly body) = Stmt.outlineAll depth body
  | [], _ => rfl
  | s :: more, depth => by
    rw [relocateAll, outlineAll, outlineAll, Stmt.outline_lineOnly s, Stmt.outlineAll_lineOnly more]

end

theorem Function.outline_lineOnly (f : Function) : (f.relocate Position.lineOnly).outline = f.outline := by
  have hparams : (f.params.map (Param.relocate Position.lineOnly)).flatMap (Param.outline 1) =
      f.params.flatMap (Param.outline 1) :=
    List.flatMap_map _ _ _
  have hbody := Stmt.outline_lineOnly (.block f.body.body f.body.pos) 1
  unfold outline relocate
  dsimp only
  rw [hparams]
  exact congrArg (fun ls => _ :: (_ ++ ls)) hbody

namespace TranslationUnit

theorem print_lineOnly (u : TranslationUnit) : (u.relocate Position.lineOnly).print = u.print := by
  have hsame : Function.outline ∘ Function.relocate Position.lineOnly = Function.outline :=
    funext Function.outline_lineOnly
  have houtline : (u.relocate Position.lineOnly).outline = u.outline := by
    unfold outline relocate
    rw [List.flatMap_map]
    exact congrArg (List.flatMap · u.functions) hsame
  rw [print, print, houtline]

/-- A unit that can be written down can be told from its outline, up to places within lines. -/
theorem relocate_eq_of_print_eq {u v : TranslationUnit} (hu : u.isWritable = true) (hv : v.isWritable = true)
    (h : u.print = v.print) : u.relocate Position.lineOnly = v.relocate Position.lineOnly := by
  have hu := List.all_eq_true.1 hu
  have hv := List.all_eq_true.1 hv
  have hlines : u.outline = v.outline :=
    OutlineLine.renderAll_inj (List.forall_mem_flatMap.2 fun f hf => Function.legible_outline (hu f hf))
      (List.forall_mem_flatMap.2 fun f hf => Function.legible_outline (hv f hf)) h
  have hfunctions := Function.outlines_inj (fun f hf => Function.params_eq_nil (hu f hf))
    (fun f hf => Function.params_eq_nil (hv f hf)) hlines
  rw [relocate, relocate, hfunctions]

end TranslationUnit

end SmallC
